import HotSwap.Proofs.Edit.Module
import HotSwap.Proofs.Mount.Redirect
/-!
# Mounted nodes under edits

Evaluating a module and reconciling its registry keep a store coherent. What is registered stands in
a cell of its own; what is patched in comes to stand in the cell of the registration it is patched
into.
-/

namespace HotSwap

open Machine

namespace Store

variable {out : ComponentId → Json → String} {stood stood' : Stood}
  {past : Store → Prop} {s t : Store}

theorem Coherent.register (h : Coherent out stood (fun _ => False) past s)
    (hs : ∀ c n v j, stood c n v j → stood' c n v j) {w : RegistryId} {name : String}
    {k proxy : ComponentId}
    {o : RegistrationOptions} (hk : Occupies out stood' s s.nodes.length k)
    (ht : Machine.register w name k o s = some (proxy, t)) :
    Coherent out stood' (fun _ => False) past t := by
  have h : Coherent out stood' (fun _ => False) past s :=
    h.weaken hs fun _ _ _ _ _ _ _ _ _ _ => id
  have hst := (register_grows ht).precedes
  obtain ⟨-, rfl⟩ := register_eq_some ht
  have hmemo {n : NodeId} {m : Memo}
      (hn : (s.nodes ++ [Node.cell (some k)])[n]? = some (.memo m)) :
      s.nodes[n]? = some (.memo m) := by
    rcases Nat.lt_or_ge n s.nodes.length with hlt | hge
    · rwa [List.getElem?_append_left hlt] at hn
    · rw [List.getElem?_append_right hge, List.getElem?_singleton] at hn
      split at hn <;> cases hn
  refine ⟨fun a ha => (h.earlier ha).trans hst, h.ordered, fun j p hp => ?_, fun c x hx => ?_,
    fun n m _ _ _ x hn hr hx => (h.template (hmemo hn) hr hx).mono hst,
    fun n m hn => Mountable.mono (h.mountable (hmemo hn)) hst,
    fun n m c _ _ x hn hr hf hx hlive => ?_⟩
  · rcases Nat.lt_or_ge j s.components.length with hlt | hge
    · dsimp only at hp
      rw [List.getElem?_append_left hlt] at hp
      obtain ⟨x, hx⟩ := h.proxied hp
      exact ⟨x, getElem?_append_of_some hx⟩
    · dsimp only at hp
      rw [List.getElem?_append_right hge, List.getElem?_singleton] at hp
      split at hp
      · cases hp
        exact ⟨some k, List.getElem?_concat_length⟩
      · cases hp
  · rcases Nat.lt_or_ge c s.nodes.length with hlt | hge
    · dsimp only at hx
      rw [List.getElem?_append_left hlt] at hx
      obtain ⟨j, hj, ho⟩ := h.standing hx
      exact ⟨j, hj, ho.mono (fun _ _ => id) hst⟩
    · dsimp only at hx
      rw [List.getElem?_append_right hge, List.getElem?_singleton] at hx
      split at hx
      · cases hx
        obtain rfl : c = s.nodes.length := Nat.le_antisymm (Nat.sub_eq_zero_iff_le.1 ‹_›) hge
        exact ⟨k, rfl, hk.mono (fun _ _ => id) hst⟩
      · cases hx
  · have hlt := (List.getElem?_eq_some_iff.1 (hmemo hn)).1
    obtain ⟨v, rfl, hv⟩ := h.mount (hmemo hn) hr hf hx (by simpa [Nat.ne_of_lt hlt] using hlive)
    refine ⟨v, rfl, hv.mono (fun _ => id) hst hv.subscribed
      (.inr (getElem?_append_of_some ·)) fun _ hl => ?_⟩
    exact List.mem_cons_of_mem _ (List.mem_cons_of_mem _ hl)

variable (out stood) in
/-- What patching needs of two registrations of one id. The new component only matters for a swap. -/
structure Patchable (s : Store) (old new : Registration) : Prop where
  oldCell : s.Celled old
  newCell : s.Celled new
  proxy : ∃ p, s.components[old.proxy]? = some (.proxy p)
  component : needsSwap old new = true → Occupies out stood s old.cell new.component

theorem Patchable.grows {old new : Registration} (h : Patchable out stood s old new)
    (hg : s.Grows t) : Patchable out stood t old new where
  oldCell := hg.celled h.oldCell
  newCell := hg.celled h.newCell
  proxy := by
    obtain ⟨p, hp⟩ := h.proxy
    exact ⟨p, hg.proxy hp⟩
  component hs := (h.component hs).mono (fun _ _ => id) hg.precedes

theorem Coherent.patchComponent (h : Coherent out stood (fun _ => False) past s)
    {old new : Registration} {report : PatchReport} {p : Registration × PatchReport}
    (hp : Patchable out stood s old new) (ht : patchComponent old new report s = some (p, t)) :
    ∃ past', (∀ a, past a → past' a) ∧ Coherent out stood (fun _ => False) past' t := by
  unfold Machine.patchComponent at ht
  split at ht
  · obtain ⟨_, u, hu, ht⟩ := bind_eq_some.1 ht
    obtain ⟨_, v, hv, ht⟩ := bind_eq_some.1 ht
    cases ht
    obtain ⟨past₁, hpast₁, h₁⟩ := h.redirect (r := old.adopt new) hp.oldCell
      (hp.component ‹_›) hu
    have hp' := hp.grows (redirect_rewired (r := old.adopt new) hp.oldCell hu).toGrows
    obtain ⟨past₂, hpast₂, h₂⟩ := h₁.redirect hp'.newCell (.inl hp'.proxy) hv
    exact ⟨past₂, fun a ha => hpast₂ a (hpast₁ a ha), h₂⟩
  · obtain ⟨_, u, hu, ht⟩ := bind_eq_some.1 ht
    cases ht
    exact h.redirect hp.newCell (.inl hp.proxy) hu

theorem Coherent.patchKnown {new : Components} {names : List String} (hd : names.Nodup)
    {old : Components} {report : PatchReport} {r : Bool × Components × PatchReport}
    (h : Coherent out stood (fun _ => False) past s)
    (hp : ∀ id ∈ names, ∀ o n, old.get? id = some o → new.get? id = some n →
      Patchable out stood s o n)
    (ht : patchKnown new names old report s = some (r, t)) :
    ∃ past', (∀ a, past a → past' a) ∧ Coherent out stood (fun _ => False) past' t := by
  induction names generalizing old report s past with
  | nil =>
    cases ht
    exact ⟨past, fun _ => id, h⟩
  | cons name names ih =>
    obtain ⟨hname, hd⟩ := List.nodup_cons.1 hd
    rw [Machine.patchKnown] at ht
    cases ho : old.get? name with
    | none =>
      rw [ho] at ht
      cases ht
      exact ⟨past, fun _ => id, h⟩
    | some o =>
      cases hn : new.get? name with
      | none =>
        rw [ho, hn] at ht
        cases ht
        exact ⟨past, fun _ => id, h⟩
      | some n =>
        rw [ho, hn] at ht
        obtain ⟨⟨patched, report'⟩, u, hu, ht⟩ := bind_eq_some.1 ht
        have hon := hp name (List.mem_cons_self ..) o n ho hn
        obtain ⟨past₁, hpast₁, h₁⟩ := h.patchComponent hon hu
        obtain ⟨-, -, hg⟩ := patchComponent_eq_some hon.oldCell hon.newCell hu
        have hrest : ∀ l ∈ names, ∀ o' n', (old.insert name patched).get? l = some o' →
            new.get? l = some n' → Patchable out stood u o' n' := by
          intro l hl o' n' ho' hn'
          have hne : l ≠ name := by
            rintro rfl
            exact hname hl
          rw [OrderedMap.get?_insert_of_ne _ hne] at ho'
          exact (hp l (List.mem_cons_of_mem _ hl) o' n' ho' hn').grows hg.toGrows
        obtain ⟨past₂, hpast₂, h₂⟩ := ih hd h₁ hrest ht
        exact ⟨past₂, fun a ha => hpast₂ a (hpast₁ a ha), h₂⟩

theorem Coherent.reconcile (h : Coherent out stood (fun _ => False) past s) {c w : RegistryId}
    {report : PatchReport}
    (hp : ∀ id o n, (s.registry c).components.get? id = some o →
      (s.registry w).components.get? id = some n → Patchable out stood s o n)
    (ht : reconcile c w s = some (report, t)) :
    ∃ past', (∀ a, past a → past' a) ∧ Coherent out stood (fun _ => False) past' t := by
  simp only [Machine.reconcile, bind_apply, registry_apply, Option.bind_some] at ht
  obtain ⟨⟨⟨patched, rep⟩, v⟩, hv, ht⟩ := Option.bind_eq_some_iff.1 ht
  cases ht
  obtain ⟨⟨_, contexts, mid⟩, u, hu, hv⟩ := bind_eq_some.1 hv
  obtain ⟨⟨_, all, last⟩, x, hx, hv⟩ := bind_eq_some.1 hv
  cases hv
  obtain ⟨hcontexts, -⟩ := patchContexts_eq_some (accommodating_preserves out) hu
  obtain ⟨past₁, hpast₁, h₁⟩ := hcontexts.coherent h
  obtain ⟨⟨reload, known, mid'⟩, y, hy, hx⟩ := bind_eq_some.1 hx
  obtain ⟨past₂, hpast₂, h₂⟩ := h₁.patchKnown (s.registry c).components.nodup_keys
    (fun id _ o n ho hn => (hp id o n ho hn).grows hcontexts.toGrows) hy
  refine ⟨past₂, fun a ha => hpast₂ a (hpast₁ a ha), ?_⟩
  dsimp only at hx
  split at hx <;>
    · simp only [pure_apply, Option.some.injEq, Prod.mk.injEq] at hx
      obtain ⟨-, rfl⟩ := hx
      exact h₂.congr rfl rfl rfl rfl

end Store

end HotSwap
