import HotSwap.Proofs.Edit.Module
/-!
# What leaves contexts alone

A program only ever makes contexts; it is patching that changes them. What it makes has a token of
its own and a provider that serves it.
-/

namespace HotSwap

open Machine

namespace Store

def contextAt (s : Store) (c : ContextId) : Context := (s.contexts[c]?).getD ⟨0, 0, .null⟩

def served (s : Store) (p : Nat) : Token := (s.providers[p]?).getD 0

structure SameContexts (s t : Store) : Prop where
  contexts : t.contexts = s.contexts
  providers : t.providers = s.providers
  tokens : t.tokens = s.tokens

/-- Neither a context nor a registry changes. -/
structure Spares (s t : Store) : Prop extends SameContexts s t where
  registries : t.registries = s.registries

def mint (s : Store) (fallback : Json) : Store := { s with
  tokens := s.tokens + 1
  providers := s.providers ++ [s.tokens]
  contexts := s.contexts ++ [{ token := s.tokens, provider := s.providers.length, fallback }] }

def provides (s : Store) (c : ContextId) : Token := s.served (s.contextAt c).provider

/-- A handle has a token and a provider that were given out, and provides for its own token. -/
structure Issued (s : Store) (c : ContextId) : Prop where
  provider : (s.contextAt c).provider < s.providers.length
  token : (s.contextAt c).token < s.tokens
  provides : s.provides c = (s.contextAt c).token

/-- At most one context is made, with a new token, and nothing else happens to contexts. -/
structure Mints (s t : Store) : Prop where
  bound : s.contexts.length ≤ t.contexts.length
  one : ∀ c, s.contexts.length ≤ c → c < t.contexts.length → c = s.contexts.length
  kept : ∀ c < s.contexts.length, t.contextAt c = s.contextAt c
  issued : ∀ c < s.contexts.length, s.Issued c → t.Issued c
  fresh : ∀ c, s.contexts.length ≤ c → c < t.contexts.length →
    t.Issued c ∧ s.tokens ≤ (t.contextAt c).token

variable {s t u : Store}

theorem Spares.refl (s : Store) : s.Spares s := ⟨⟨rfl, rfl, rfl⟩, rfl⟩

theorem Spares.trans (h : s.Spares t) (h' : t.Spares u) : s.Spares u where
  contexts := h'.contexts.trans h.contexts
  providers := h'.providers.trans h.providers
  tokens := h'.tokens.trans h.tokens
  registries := h'.registries.trans h.registries

theorem SameContexts.contextAt (h : s.SameContexts t) (c : ContextId) :
    t.contextAt c = s.contextAt c := by
  rw [Store.contextAt, h.contexts, Store.contextAt]

theorem contextAt_mint_of_lt {v : Json} {c : ContextId} (h : c < s.contexts.length) :
    (s.mint v).contextAt c = s.contextAt c := by
  rw [contextAt, mint, List.getElem?_append_left h, contextAt]

theorem contextAt_mint_self (s : Store) (v : Json) :
    (s.mint v).contextAt s.contexts.length = ⟨s.tokens, s.providers.length, v⟩ := by
  rw [contextAt, mint, List.getElem?_concat_length, Option.getD_some]

theorem served_mint_of_lt {v : Json} {p : Nat} (h : p < s.providers.length) :
    (s.mint v).served p = s.served p := by
  rw [served, mint, List.getElem?_append_left h, served]

theorem served_mint_self (s : Store) (v : Json) :
    (s.mint v).served s.providers.length = s.tokens := by
  rw [served, mint, List.getElem?_concat_length, Option.getD_some]

theorem Issued.of_identity {c d : ContextId} (h : s.Issued c) (hp : t.providers = s.providers)
    (hk : t.tokens = s.tokens) (token : (t.contextAt d).token = (s.contextAt c).token)
    (provider : (t.contextAt d).provider = (s.contextAt c).provider) : t.Issued d where
  provider := by
    rw [provider, hp]
    exact h.provider
  token := by
    rw [token, hk]
    exact h.token
  provides := by
    rw [Store.provides, served, provider, hp, token]
    exact h.provides

theorem SameContexts.issued (h : s.SameContexts t) {c : ContextId} (hc : s.Issued c) : t.Issued c :=
  hc.of_identity h.providers h.tokens (by rw [h.contextAt]) (by rw [h.contextAt])

theorem SameContexts.mints (h : s.SameContexts t) : s.Mints t where
  bound := by simp [h.contexts]
  one c hc hc' := by
    rw [h.contexts] at hc'
    exact absurd hc' (Nat.not_lt.2 hc)
  kept c _ := h.contextAt c
  issued _ _ := h.issued
  fresh c hc hc' := by
    rw [h.contexts] at hc'
    exact absurd hc' (Nat.not_lt.2 hc)

theorem issued_mint_of_lt {v : Json} {c : ContextId} (hc : c < s.contexts.length)
    (h : s.Issued c) : (s.mint v).Issued c where
  provider := by
    rw [contextAt_mint_of_lt hc]
    exact Nat.lt_of_lt_of_le h.provider (by simp [mint])
  token := by
    rw [contextAt_mint_of_lt hc]
    exact Nat.lt_succ_of_lt h.token
  provides := by
    rw [Store.provides, contextAt_mint_of_lt hc, served_mint_of_lt h.provider]
    exact h.provides

theorem issued_mint_self (s : Store) (v : Json) : (s.mint v).Issued s.contexts.length where
  provider := by
    rw [contextAt_mint_self]
    simp [mint]
  token := by
    rw [contextAt_mint_self]
    exact Nat.lt_succ_self _
  provides := by rw [Store.provides, contextAt_mint_self, served_mint_self]

theorem mints_of_mint {v : Json} (h : (s.mint v).SameContexts t) : s.Mints t := by
  have hlen : t.contexts.length = s.contexts.length + 1 := by simp [h.contexts, mint]
  have one (c : ContextId) (hc : s.contexts.length ≤ c) (hc' : c < t.contexts.length) :
      c = s.contexts.length := by
    rw [hlen] at hc'
    exact Nat.le_antisymm (Nat.lt_succ_iff.1 hc') hc
  refine ⟨by simp [hlen], one, fun c hc => ?_, fun c hc hi => ?_, fun c hc hc' => ?_⟩
  · rw [h.contextAt, contextAt_mint_of_lt hc]
  · exact h.issued (issued_mint_of_lt hc hi)
  · obtain rfl := one c hc hc'
    exact ⟨h.issued (issued_mint_self s v), Nat.le_of_eq (by rw [h.contextAt, contextAt_mint_self])⟩

theorem indifferent_spares : Indifferent Spares where
  refl := .refl
  trans _ _ _ := .trans
  emit s _ := { Spares.refl s with }
  addMemo _ := ⟨⟨rfl, rfl, rfl⟩, rfl⟩
  signal _ _ := ⟨⟨rfl, rfl, rfl⟩, rfl⟩
  mark _ := ⟨⟨rfl, rfl, rfl⟩, rfl⟩
  effect _ _ _ _ := ⟨⟨rfl, rfl, rfl⟩, rfl⟩
  track _ _ := ⟨⟨rfl, rfl, rfl⟩, rfl⟩
  unsubscribe _ := ⟨⟨rfl, rfl, rfl⟩, rfl⟩
  collect _ := ⟨⟨rfl, rfl, rfl⟩, rfl⟩
  roots s _ := { Spares.refl s with }
  frame _ h := { h with }
  providing _ h := { h with }
  scope _ h := { h with }
  pinned _ h := { h with }
  edges s _ := { Spares.refl s with }
  settle _ _ := ⟨⟨rfl, rfl, rfl⟩, rfl⟩

theorem tolerant_spares : Tolerant Spares where
  toAdmissible := indifferent_spares.toAdmissible
  addSignal s _ := { Spares.refl s with }
  addEffect s _ := { Spares.refl s with }
  addFunction s _ := { Spares.refl s with }
  dirty _ := ⟨⟨rfl, rfl, rfl⟩, rfl⟩
  properties _ _ := ⟨⟨rfl, rfl, rfl⟩, rfl⟩

end Store

namespace Machine

variable {s t : Store}

theorem newContext_apply (v : Json) (s : Store) :
    newContext v s = some (s.contexts.length, s.mint v) := rfl

theorem topCalls_spares : topCalls.Within Store.Spares topCalls :=
  Store.indifferent_spares.calls_self nesting

end Machine

theorem Action.run_contexts {a : Action} {s t : Store} (h : a.run s = some ((), t)) :
    s.Spares t ∨ ∃ v, t = s.mint v := by
  by_cases ha : ∀ v, a ≠ .context v
  · exact .inl (a.run_tolerated Store.tolerant_spares topCalls_spares ha s h).2
  · obtain ⟨v, rfl⟩ : ∃ v, a = .context v := by simpa using ha
    cases h
    exact .inr ⟨v, rfl⟩

theorem Moment.Step.contexts {A : Admission} {m m' : Moment} (h : Moment.Step A m m') :
    m.store.SameContexts m'.store ∨ ∃ v, (m.store.mint v).SameContexts m'.store := by
  cases h with
  | act a h =>
    rcases a.run_contexts h with hs | ⟨v, rfl⟩
    · exact .inl hs.toSameContexts
    · exact .inr ⟨v, rfl, rfl, rfl⟩
  | create h =>
    cases h
    exact .inl ⟨rfl, rfl, rfl⟩
  | register id o hw hA h =>
    obtain ⟨-, rfl⟩ := register_eq_some h
    exact .inl ⟨rfl, rfl, rfl⟩
  | registerContext id c hw h =>
    cases h
    exact .inl ⟨rfl, rfl, rfl⟩

theorem Moment.Step.mints {A : Admission} {m m' : Moment} (h : Moment.Step A m m') :
    m.store.Mints m'.store := by
  rcases h.contexts with h | ⟨v, h⟩
  · exact h.mints
  · exact Store.mints_of_mint h

end HotSwap
