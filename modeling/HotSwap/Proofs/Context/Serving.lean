import Mathlib.Data.List.Induction
import Mathlib.Tactic.ByContra
import HotSwap.Proofs.Context.History
import HotSwap.Proofs.Context.Scope
/-!
# How long a provider serves its context

A provider answers to the token that its handle had when the provider was taken. Patching gives
handles new tokens: a handle that is patched in as the new one of an id leaves the providers behind
that were taken from it before.
-/

namespace HotSwap

open Machine

def Machine.provideWith (p : Nat) (v : Json) (act : Machine α) : Machine α := do
  providing (← providerToken p) v act

namespace Store

/-- Whatever the provider provides around a read of the handle is read, whatever surrounds it, and
unless another provider of the same context stands between. -/
def Serves (s : Store) (p : Nat) (c : ContextId) : Prop :=
  ∀ (env : Env) (surroundings : Scope) (inner : Providers) (v : Json),
    (∀ q ∈ inner, s.provides q.1 ≠ (s.contextAt c).token) →
      provideWith p v ((Expr.inside inner (.use c)).eval topCalls env) (s.inScope surroundings) =
        some (v, s.inScope surroundings)

/-- When the handle's turn comes as the new one of an id, it carries another token than the old. -/
def Displaces (s : Store) (r w : RegistryId) (c : ContextId) : Prop :=
  ∃ before old after, s.contextPairs r w = before ++ (old, c) :: after ∧
    ((s.patchPairs before).contextAt old).token ≠ ((s.patchPairs before).contextAt c).token

/-- Contexts, tokens and providers are numbered alike, and a handle carries a token and a provider of
one number. -/
structure Numbered (s : Store) : Prop where
  tokens : s.tokens = s.contexts.length
  providers : s.providers = List.range s.contexts.length
  alike : ∀ c, (s.contextAt c).provider = (s.contextAt c).token
  bound : ∀ c, (s.contextAt c).token < s.contexts.length ∨ (s.contextAt c).token = 0

end Store

/-- A step of a program that reconciles registries, where `P` says which and when. -/
inductive Moment.Patches (P : Store → RegistryId → RegistryId → Prop) : Moment → Moment → Prop
  | go {m m' : Moment} (h : Moment.Step .all m m') : Patches P m m'
  | reconcile {s t : Store} {ws : List RegistryId} {r w : RegistryId} {report : PatchReport}
    (hP : P s r w) (h : Machine.reconcile r w s = some (report, t)) : Patches P ⟨s, ws⟩ ⟨t, ws⟩

def Moment.PatchedTo (P : Store → RegistryId → RegistryId → Prop) : Moment → Moment → Prop :=
  Relation.ReflTransGen (Moment.Patches P)

namespace Store

variable {s t : Store} {c : ContextId} {p : ContextPair} {ps : List ContextPair}

theorem Numbered.served (h : s.Numbered) {n : Nat} (hn : n < s.contexts.length ∨ n = 0) :
    s.served n = n := by
  rw [Store.served, h.providers]
  by_cases hlt : n < s.contexts.length
  · rw [List.getElem?_range hlt, Option.getD_some]
  · rw [List.getElem?_eq_none (by simpa using hlt), Option.getD_none]
    exact (hn.resolve_left hlt).symm

theorem numbered_empty : ({} : Store).Numbered := ⟨rfl, rfl, fun _ => rfl, fun _ => .inr rfl⟩

theorem Numbered.sameContexts (h : s.Numbered) (hs : s.SameContexts t) : t.Numbered where
  tokens := by rw [hs.tokens, hs.contexts, h.tokens]
  providers := by rw [hs.providers, hs.contexts, h.providers]
  alike c := by rw [hs.contextAt, h.alike]
  bound c := by
    rw [hs.contextAt, hs.contexts]
    exact h.bound c

theorem contextAt_of_le (h : s.contexts.length ≤ c) : s.contextAt c = ⟨0, 0, .null⟩ := by
  rw [contextAt, List.getElem?_eq_none h, Option.getD_none]

theorem Numbered.mint (h : s.Numbered) (v : Json) : (s.mint v).Numbered := by
  have hlen : (s.mint v).contexts.length = s.contexts.length + 1 := by simp [Store.mint]
  refine ⟨?_, ?_, fun c => ?_, fun c => ?_⟩
  · rw [hlen]
    exact congrArg (· + 1) h.tokens
  · rw [hlen, List.range_succ, ← h.providers]
    exact congrArg (s.providers ++ [·]) h.tokens
  · rcases Nat.lt_trichotomy c s.contexts.length with hc | rfl | hc
    · rw [contextAt_mint_of_lt hc, h.alike]
    · rw [contextAt_mint_self, h.tokens, h.providers, List.length_range]
    · rw [contextAt_of_le (hlen ▸ hc)]
  · rw [hlen]
    rcases Nat.lt_trichotomy c s.contexts.length with hc | rfl | hc
    · rw [contextAt_mint_of_lt hc]
      exact (h.bound c).imp_left Nat.lt_succ_of_lt
    · rw [contextAt_mint_self, h.tokens]
      exact .inl (Nat.lt_succ_self _)
    · rw [contextAt_of_le (hlen ▸ hc)]
      exact .inr rfl

theorem Numbered.patchPair (h : s.Numbered) (p : ContextPair) : (s.patchPair p).Numbered := by
  have hlen := length_patchPair (s := s) (p := p)
  refine ⟨h.tokens.trans hlen.symm, ?_, fun c => ?_, fun c => ?_⟩
  · rw [hlen]
    exact h.providers
  · by_cases hc : c < s.contexts.length
    · obtain ⟨token, provider⟩ := identity_patchPair s p hc
      rw [token, provider, h.alike]
    · rw [contextAt_of_le (by simpa using hc)]
  · rw [hlen]
    by_cases hc : c < s.contexts.length
    · rw [(identity_patchPair s p hc).1]
      exact h.bound _
    · rw [contextAt_of_le (by simpa using hc)]
      exact .inr rfl

theorem Numbered.patchPairs (h : s.Numbered) (ps : List ContextPair) :
    (s.patchPairs ps).Numbered := by
  induction ps generalizing s with
  | nil => exact h
  | cons p ps ih => exact ih (h.patchPair p)

theorem token_patchPairs (hc : c < s.contexts.length)
    (h : ∀ before old after, ps = before ++ (old, c) :: after →
      ((s.patchPairs before).contextAt old).token = ((s.patchPairs before).contextAt c).token) :
    ((s.patchPairs ps).contextAt c).token = (s.contextAt c).token := by
  induction ps using List.reverseRecOn with
  | nil => rfl
  | append_singleton ps p ih =>
    have hps := ih fun before old after e => h before old (after ++ [p]) (by simp [e])
    have hlast : s.patchPairs (ps ++ [p]) = (s.patchPairs ps).patchPair p := by
      simp [Store.patchPairs]
    rw [hlast, (identity_patchPair _ p (by simpa using hc)).1]
    split
    · obtain ⟨old, new⟩ := p
      obtain rfl : c = new := ‹_›
      exact (h ps old [] rfl).trans hps
    · exact hps

theorem serves_iff (s : Store) (p : Nat) (c : ContextId) :
    s.Serves p c ↔ (s.contextAt c).token = s.served p := by
  have eval (surroundings : Scope) (inner : Providers) (env : Env) (v : Json) :
      provideWith p v ((Expr.inside inner (.use c)).eval topCalls env) (s.inScope surroundings) =
        some ((s.inScope ((s.served p, v) :: surroundings)).reading inner c,
          s.inScope surroundings) :=
    providing_of_pure (Expr.eval_inside_use topCalls env inner c _)
  constructor
  · intro h
    by_contra hne
    -- Without providers in between, the read falls back on the default, whatever is provided.
    have hdefault (v : Json) : (s.contextAt c).fallback = v := by
      have hv := (eval [] [] {} v).symm.trans (h {} [] [] v (by simp))
      have hb : ((s.contextAt c).token == s.served p) = false := beq_false_of_ne hne
      have hlookup : (s.inScope [(s.served p, v)]).reading [] c = (s.contextAt c).fallback := by
        simp [reading, pushed, List.lookup_cons, hb]
      exact hlookup.symm.trans (congrArg Prod.fst (Option.some.inj hv))
    cases (hdefault .null).symm.trans (hdefault (.bool true))
  · intro e env surroundings inner v hinner
    have hlookup : ((s.inScope ((s.served p, v) :: surroundings)).pushed inner).lookup
        (s.contextAt c).token = some v := by
      rw [lookup_pushed_of_ne (s := s.inScope ((s.served p, v) :: surroundings)) hinner,
        provided_inScope, e, List.lookup_cons_self]
    rw [eval, reading, contextAt_inScope, hlookup, Option.getD_some]

end Store

namespace Moment

variable {P : Store → RegistryId → RegistryId → Prop} {m m' : Moment} {c : ContextId}

theorem Patches.numbered (h : m.Patches P m') (hm : m.store.Numbered) : m'.store.Numbered := by
  cases h with
  | go h =>
    rcases h.contexts with hs | ⟨v, hs⟩
    · exact hm.sameContexts hs
    · exact (hm.mint v).sameContexts hs
  | reconcile _ h => exact (hm.patchPairs _).sameContexts (reconcile_contexts h).1

theorem PatchedTo.numbered (h : m.PatchedTo P m') (hm : m.store.Numbered) : m'.store.Numbered := by
  induction h with
  | refl => exact hm
  | tail _ h ih => exact h.numbered ih

theorem Patches.bound (h : m.Patches P m') :
    m.store.contexts.length ≤ m'.store.contexts.length := by
  cases h with
  | go h => exact h.mints.bound
  | reconcile _ h => simp [(reconcile_contexts h).1.contexts]

theorem PatchedTo.bound (h : m.PatchedTo P m') :
    m.store.contexts.length ≤ m'.store.contexts.length := by
  induction h with
  | refl => exact Nat.le_refl _
  | tail _ h ih => exact Nat.le_trans ih h.bound

theorem Patches.token (h : m.Patches (fun s r w => ¬ s.Displaces r w c) m')
    (hc : c < m.store.contexts.length) :
    (m'.store.contextAt c).token = (m.store.contextAt c).token := by
  cases h with
  | go h => rw [h.mints.kept c hc]
  | reconcile hP h =>
    rw [(reconcile_contexts h).1.contextAt]
    refine Store.token_patchPairs hc fun before old after e => ?_
    by_contra hne
    exact hP ⟨before, old, after, e, hne⟩

theorem PatchedTo.token (h : m.PatchedTo (fun s r w => ¬ s.Displaces r w c) m')
    (hc : c < m.store.contexts.length) :
    (m'.store.contextAt c).token = (m.store.contextAt c).token := by
  induction h with
  | refl => rfl
  | tail hrun h ih => exact (h.token (Nat.lt_of_lt_of_le hc (PatchedTo.bound hrun))).trans ih

/-- Whatever is reconciled after a provider was taken, it serves its handle exactly if the handle has
the token that it had then; and the handle has if no reconciliation displaced it. -/
theorem taken_provider_serves (taken : PatchedTo (fun _ _ _ => True) ⟨{}, []⟩ m)
    (hc : c < m.store.contexts.length) (later : m.PatchedTo (fun _ _ _ => True) m') :
    (m'.store.Serves (m.store.contextAt c).provider c ↔
      (m'.store.contextAt c).token = (m.store.contextAt c).token) ∧
    (m.PatchedTo (fun s r w => ¬ s.Displaces r w c) m' →
      m'.store.Serves (m.store.contextAt c).provider c) := by
  have hm := taken.numbered Store.numbered_empty
  have hm' := later.numbered hm
  have hserved : m'.store.served (m.store.contextAt c).provider = (m.store.contextAt c).token := by
    rw [hm.alike]
    exact hm'.served ((hm.bound c).imp_left fun hlt => Nat.lt_of_lt_of_le hlt later.bound)
  have hiff := m'.store.serves_iff (m.store.contextAt c).provider c
  rw [hserved] at hiff
  exact ⟨hiff, fun kept => hiff.2 (kept.token hc)⟩

theorem patchedTo_declaring (s : Store) (ws : List RegistryId) (v : Json) (id : String) :
    PatchedTo P ⟨s, ws⟩ ⟨s.declaring v id, s.registries.length :: ws⟩ :=
  ((Relation.ReflTransGen.single (.go (.act (.context v) rfl))).tail (.go (.create rfl))).tail
    (.go (.registerContext id s.contexts.length (List.mem_cons_self ..) rfl))

/-- Two evaluations of a module, of which the second is not patched in yet. -/
def twoContexts : Moment :=
  ⟨(Store.declaring {} (.string "light") "Theme").declaring (.string "dark") "Theme", [1, 0]⟩

def twoPatched : Moment := ⟨twoContexts.store.after (Machine.reconcile 0 1), [1, 0]⟩

theorem twoContexts_patchedTo : PatchedTo P ⟨{}, []⟩ twoContexts :=
  (patchedTo_declaring {} [] (.string "light") "Theme").trans
    (patchedTo_declaring _ [0] (.string "dark") "Theme")

theorem twoPatched_patchedTo (h : P twoContexts.store 0 1) : PatchedTo P twoContexts twoPatched := by
  obtain ⟨report, ht⟩ := Store.eq_after (s := twoContexts.store) (m := Machine.reconcile 0 1) rfl
  exact .single (.reconcile h ht)

/-- A provider of the old handle goes on serving it. -/
theorem taken_serving_in_twoPatched : PatchedTo (fun _ _ _ => True) ⟨{}, []⟩ twoContexts ∧
    0 < twoContexts.store.contexts.length ∧
    PatchedTo (fun _ _ _ => True) twoContexts twoPatched ∧
    twoPatched.store.Serves (twoContexts.store.contextAt 0).provider 0 := by
  refine ⟨twoContexts_patchedTo, by decide, twoPatched_patchedTo trivial, ?_⟩
  refine (taken_provider_serves twoContexts_patchedTo (by decide) (twoPatched_patchedTo trivial)).2
    (twoPatched_patchedTo ?_)
  rintro ⟨before, old, after, e, -⟩
  have hmem : (old, 0) ∈ twoContexts.store.contextPairs 0 1 := e ▸ List.mem_append_cons_self
  have hpairs : twoContexts.store.contextPairs 0 1 = [(0, 1)] := rfl
  simp [hpairs] at hmem

/-- A provider of the new handle, taken before it is patched in, serves it no longer: the handle reads
its default inside it. -/
theorem not_always_serving : ∃ (m m' : Moment) (c : ContextId),
    PatchedTo (fun _ _ _ => True) ⟨{}, []⟩ m ∧ c < m.store.contexts.length ∧
    PatchedTo (fun _ _ _ => True) m m' ∧ m'.store.provided = [] ∧
    provideWith (m.store.contextAt c).provider (.string "solarized")
      ((Expr.use c).eval topCalls {}) m'.store ≠ some (.string "solarized", m'.store) := by
  refine ⟨twoContexts, twoPatched, 1, twoContexts_patchedTo, by decide,
    twoPatched_patchedTo trivial, rfl, fun e => ?_⟩
  have hread : (provideWith (twoContexts.store.contextAt 1).provider (.string "solarized")
      ((Expr.use 1).eval topCalls {}) twoPatched.store).map Prod.fst = some (.string "dark") := rfl
  have hvalue : some (Json.string "dark") = some (.string "solarized") :=
    hread.symm.trans (congrArg (Option.map Prod.fst) e)
  simp at hvalue

end Moment

end HotSwap
