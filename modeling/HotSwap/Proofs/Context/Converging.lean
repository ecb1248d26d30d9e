import Mathlib.Data.List.Find
import HotSwap.Proofs.Context.History
import HotSwap.Proofs.Context.Scope
/-!
# Handles converge

After every edit the handles that the versions of a module declared for an id share one token, which
no other context has. So each of them reads what is provided through any other. Defaults are not
shared: an edit passes the new one to the canonical handle only.
-/

namespace HotSwap

open Machine

def handlesOf (es : List Edition) (id : String) : List ContextId :=
  (declared es id).map Declaration.handle

namespace History

variable {A : Admission} {origin : ContextId} {s₀ : Store} {T : History} {id : String}
  {first : Declaration} {rest : List Declaration}

theorem Ledger.converged (h : Ledger origin T) (hd : declared T.editions id = first :: rest) :
    ∃ last, (first :: rest).getLast? = some last ∧
      Declaration.Converged T.moment.store first last rest := by
  obtain ⟨⟨s, ws⟩, es⟩ := T
  cases es with
  | nil => cases hd
  | cons e es =>
    have hline := h.lines e es rfl id
    rw [hd] at hline
    generalize OrderedMap.get? _ id = r at hline
    cases hline with
    | known _ latest hc => exact ⟨_, latest, hc⟩

theorem Ledger.identity_eq (h : Ledger origin T) (hd : declared T.editions id = first :: rest)
    {d : Declaration} (hm : d ∈ first :: rest) :
    (T.moment.store.contextAt d.handle).token = first.made.token ∧
      (T.moment.store.contextAt d.handle).provider = first.made.provider := by
  obtain ⟨last, -, hc⟩ := h.converged hd
  rcases List.mem_cons.1 hm with rfl | hm
  · rw [hc.canonical]
    exact ⟨rfl, rfl⟩
  · rw [hc.followers d hm]
    exact ⟨rfl, rfl⟩

theorem Ledger.leads (h : Ledger origin T) (hd : declared T.editions id = first :: rest) :
    Leads T.editions first.handle := by
  intro id' d hm e
  have hf : first ∈ declared T.editions id := hd ▸ List.mem_cons_self ..
  obtain rfl := h.single (List.mem_of_mem_tail hm) hf e
  have hn := h.nodup id'
  rw [hd] at hm hn
  exact (List.nodup_cons.1 hn).1 (e ▸ List.mem_map_of_mem hm)

theorem Ledger.token_eq_iff (h : Ledger origin T) (hd : declared T.editions id = first :: rest)
    {c : ContextId} (hc : origin ≤ c) (hlt : c < T.moment.store.contexts.length) :
    (T.moment.store.contextAt c).token = first.made.token ↔ c ∈ handlesOf T.editions id := by
  have hf : first ∈ declared T.editions id := hd ▸ List.mem_cons_self ..
  obtain ⟨ho, hb⟩ := h.created id first hf
  have hfirst := (h.identity_eq hd (List.mem_cons_self ..)).1
  constructor
  · intro e
    by_cases lead : Leads T.editions c
    · obtain rfl := h.apart hc hlt ho hb lead (h.leads hd) (e.trans hfirst.symm)
      exact List.mem_map_of_mem hf
    · -- A handle that follows has the token of the first handle of its own id.
      simp only [Leads, not_forall, not_not] at lead
      obtain ⟨id', d, hm, rfl⟩ := lead
      cases hl : declared T.editions id' with
      | nil => simp [hl] at hm
      | cons first' rest' =>
        have hf' : first' ∈ declared T.editions id' := hl ▸ List.mem_cons_self ..
        obtain ⟨ho', hb'⟩ := h.created id' first' hf'
        have hfirst' := (h.identity_eq hl (List.mem_cons_self ..)).1
        have hfollow := (h.identity_eq hl (hl ▸ List.mem_of_mem_tail hm)).1
        have hsame := h.apart ho' hb' ho hb (h.leads hl) (h.leads hd)
          (hfirst'.trans (hfollow.symm.trans (e.trans hfirst.symm)))
        obtain rfl := h.single hf' hf hsame
        exact List.mem_map_of_mem (List.mem_of_mem_tail hm)
  · intro hm
    obtain ⟨d, hmem, rfl⟩ := List.mem_map.1 hm
    exact (h.identity_eq hd (hd ▸ hmem)).1

theorem Ledger.lookup_pushed (h : Ledger origin T) (hd : declared T.editions id = first :: rest)
    {d : Declaration} (hm : d ∈ first :: rest) (surroundings : Scope) {ps : Providers}
    (hps : ∀ p ∈ ps, origin ≤ p.1 ∧ p.1 < T.moment.store.contexts.length) :
    ((T.moment.store.inScope surroundings).pushed ps).lookup
        (T.moment.store.contextAt d.handle).token =
      ((ps.reverse.find? fun p => p.1 ∈ handlesOf T.editions id).map Prod.snd).or
        (surroundings.lookup first.made.token) := by
  rw [Store.lookup_pushed, (h.identity_eq hd hm).1]
  refine congrArg (fun x => (Option.map Prod.snd x).or _) (List.find?_congr fun p hp => ?_)
  obtain ⟨ho, hlt⟩ := hps p (List.mem_reverse.1 hp)
  rw [Store.provides_inScope, (h.issued p.1 ho hlt).provides]
  exact decide_eq_decide.2 (h.token_eq_iff hd ho hlt)

/-- After every edit all handles of an id carry the token and the provider of the first one, and no
other context has this token. So a handle reads the innermost value that is provided through any
handle of its id, whatever is provided through other ones; without such a value it reads what the
surroundings provide for that token. The canonical handle is the first one, with the default of the
latest version. -/
theorem handles_converge (h : T.Reached A s₀) (hd : declared T.editions id = first :: rest) :
    (∀ e es, T.editions = e :: es → ∃ r, r.context = first.handle ∧
      (T.moment.store.registry e.registry).contexts.get? id = some r) ∧
    (∃ latest last, T.editions.getLast? = some latest ∧ latest.declaration? id = some last ∧
      (T.moment.store.contextAt first.handle).fallback = last.made.fallback) ∧
    (∀ d ∈ first :: rest, (T.moment.store.contextAt d.handle).token = first.made.token ∧
      (T.moment.store.contextAt d.handle).provider = first.made.provider) ∧
    T.moment.store.served first.made.provider = first.made.token ∧
    (∀ c, s₀.contexts.length ≤ c → c < T.moment.store.contexts.length →
      ((T.moment.store.contextAt c).token = first.made.token ↔ c ∈ handlesOf T.editions id)) ∧
    ∀ d ∈ first :: rest, ∀ (env : Env) (surroundings : Scope) (ps : Providers),
      (∀ p ∈ ps, s₀.contexts.length ≤ p.1 ∧ p.1 < T.moment.store.contexts.length) →
        (Expr.inside ps (.use d.handle)).eval topCalls env (T.moment.store.inScope surroundings) =
          some ((((ps.reverse.find? fun p => p.1 ∈ handlesOf T.editions id).map Prod.snd).or
              (surroundings.lookup first.made.token)).getD
            (T.moment.store.contextAt d.handle).fallback, T.moment.store.inScope surroundings) := by
  have hl := h.ledger
  have hf : first ∈ declared T.editions id := hd ▸ List.mem_cons_self ..
  obtain ⟨ho, hb⟩ := hl.created id first hf
  obtain ⟨last, hlast, hc⟩ := hl.converged hd
  refine ⟨fun e es he => ?_, ?_, fun d hm => hl.identity_eq hd hm, ?_,
    fun c hc hlt => hl.token_eq_iff hd hc hlt, fun d hm env surroundings ps hps => ?_⟩
  · have hline := hl.lines e es he id
    rw [hd] at hline
    generalize OrderedMap.get? _ id = r at hline
    cases hline with
    | known handle _ _ => exact ⟨_, handle, rfl⟩
  · obtain ⟨latest, he, hdecl⟩ := hl.latest id (by simp [hd])
    exact ⟨latest, last, he, by rw [hdecl, hd, hlast], by rw [hc.canonical]⟩
  · obtain ⟨token, provider⟩ := hl.identity_eq hd (List.mem_cons_self ..)
    rw [← provider, ← token]
    exact (hl.issued _ ho hb).provides
  · rw [Expr.eval_inside_use, Store.reading, Store.contextAt_inScope,
      hl.lookup_pushed hd hm surroundings hps]

/-- Three versions of a module, which declare one context with different defaults. -/
def threeThemes : History :=
  History.mk ⟨{}, []⟩ [] |>.declare (.string "light") "Theme" |>.declare (.string "dark") "Theme"
    |>.declare (.string "blue") "Theme"

theorem threeThemes_reached : threeThemes.Reached .all {} := by
  have first : (History.mk ⟨{}, []⟩ [] |>.declare (.string "light") "Theme").Reached .all {} :=
    Reached.declare .refl (by simp)
  have second : (History.mk ⟨{}, []⟩ [] |>.declare (.string "light") "Theme"
      |>.declare (.string "dark") "Theme").Reached .all {} :=
    first.declare (by rintro e ⟨⟩; rfl)
  exact second.declare (by rintro e ⟨⟩; rfl)

theorem declared_threeThemes : declared threeThemes.editions "Theme" =
    [⟨0, ⟨0, 0, .string "light"⟩⟩, ⟨1, ⟨1, 1, .string "dark"⟩⟩, ⟨2, ⟨2, 2, .string "blue"⟩⟩] := rfl

/-- What is provided through the handle of the second version, all three read. -/
theorem converging_in_threeThemes : threeThemes.Reached .all {} ∧
    ∀ d ∈ declared threeThemes.editions "Theme",
      (Expr.inside [(1, .string "solarized")] (.use d.handle)).eval topCalls {}
        (threeThemes.moment.store.inScope []) =
          some (.string "solarized", threeThemes.moment.store.inScope []) := by
  obtain ⟨-, -, -, -, -, hread⟩ := handles_converge threeThemes_reached declared_threeThemes
  refine ⟨threeThemes_reached, fun d hd => ?_⟩
  rw [hread d hd {} [] [(1, .string "solarized")] (by decide)]
  rfl

/-- Outside any provider of a context, the canonical handle and that of the latest version read the
latest default; the handle of a version in between reads the default of its own version. -/
theorem defaults_outside (h : T.Reached A s₀) (hd : declared T.editions id = first :: rest)
    {surroundings : Scope} (hout : surroundings.lookup first.made.token = none) :
    ∃ latest last, T.editions.getLast? = some latest ∧ latest.declaration? id = some last ∧
      useContext first.handle (T.moment.store.inScope surroundings) =
        some (last.made.fallback, T.moment.store.inScope surroundings) ∧
      useContext last.handle (T.moment.store.inScope surroundings) =
        some (last.made.fallback, T.moment.store.inScope surroundings) ∧
      ∀ d ∈ rest, useContext d.handle (T.moment.store.inScope surroundings) =
        some (d.made.fallback, T.moment.store.inScope surroundings) := by
  have hl := h.ledger
  obtain ⟨last, hlast, hc⟩ := hl.converged hd
  obtain ⟨latest, he, hdecl⟩ := hl.latest id (by simp [hd])
  have hread {d : Declaration} (hm : d ∈ first :: rest) :
      useContext d.handle (T.moment.store.inScope surroundings) =
        some ((T.moment.store.contextAt d.handle).fallback, T.moment.store.inScope surroundings) := by
    change some ((surroundings.lookup (T.moment.store.contextAt d.handle).token).getD _, _) = _
    rw [(hl.identity_eq hd hm).1, hout]
    rfl
  have canonical := hread (List.mem_cons_self ..)
  rw [hc.canonical] at canonical
  have followers {d : Declaration} (hm : d ∈ rest) := hread (List.mem_cons_of_mem _ hm)
  refine ⟨latest, last, he, by rw [hdecl, hd, hlast], canonical, ?_, fun d hm => ?_⟩
  · rcases List.mem_cons.1 (List.mem_of_getLast? hlast) with e | hm
    · rw [e] at canonical ⊢
      exact canonical
    · rw [followers hm, hc.followers last hm]
  · rw [followers hm, hc.followers d hm]

theorem defaults_in_threeThemes : threeThemes.Reached .all {} ∧
    ([] : Scope).lookup 0 = none ∧
    useContext 0 (threeThemes.moment.store.inScope []) =
      some (.string "blue", threeThemes.moment.store.inScope []) := by
  refine ⟨threeThemes_reached, rfl, ?_⟩
  obtain ⟨latest, last, he, hdecl, hread, -⟩ :=
    defaults_outside threeThemes_reached declared_threeThemes (show ([] : Scope).lookup 0 = none from rfl)
  cases he
  cases hdecl
  exact hread

/-- The second of three versions declared the default "dark", and its handle goes on to read it. -/
theorem not_all_latest_default : ∃ (T : History) (latest : Edition) (d last : Declaration),
    T.Reached .all {} ∧ T.editions.getLast? = some latest ∧ latest.declaration? "Theme" = some last ∧
      d ∈ declared T.editions "Theme" ∧ T.moment.store.provided = [] ∧
      useContext d.handle T.moment.store ≠ some (last.made.fallback, T.moment.store) := by
  refine ⟨threeThemes, _, ⟨1, ⟨1, 1, .string "dark"⟩⟩, ⟨2, ⟨2, 2, .string "blue"⟩⟩,
    threeThemes_reached, rfl, rfl, ?_, rfl, fun e => ?_⟩
  · rw [declared_threeThemes]
    simp
  · have hread : useContext 1 threeThemes.moment.store =
        some (.string "dark", threeThemes.moment.store) := rfl
    have hvalue : Json.string "dark" = .string "blue" :=
      congrArg Prod.fst (Option.some.inj (hread.symm.trans e))
    simp at hvalue

end History

end HotSwap
