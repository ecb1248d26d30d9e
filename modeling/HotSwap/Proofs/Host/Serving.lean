import HotSwap.Proofs.Component.Chain
import HotSwap.Proofs.Edit.Module
import HotSwap.Refresh.Program
/-!
# Runs of an accept-with-module host

A host serves a module that is evaluated again and again. Its callbacks stay registered and pile up;
to deliver or to apply an update is to take them, to run one after the other, and to give them back
or not. Here they may run in any order and as often as one likes.
-/

namespace HotSwap

open Machine

def Store.slots (s : Store) (d : DataId) : HotData := (s.data[d]?).getD .empty

abbrev Admission.anyFunction : Admission := .functions fun _ _ => True

/-- A program under a host, and the callbacks that were taken from the host. -/
structure Serving where
  moment : Moment
  taken : List AcceptCallback

namespace Serving

/-- A step that patches nothing. -/
inductive Step (h : HostId) : Serving → Serving → Prop
  | go {m m' : Moment} {cs : List AcceptCallback} (hm : Moment.Step .anyFunction m m') :
    Step h ⟨m, cs⟩ ⟨m', cs⟩
  /-- An evaluation ends and hands its registry over. -/
  | refresh {s t : Store} {ws : List RegistryId} {w : RegistryId} {cs : List AcceptCallback}
    (cfg : Config) (g : GateId) (hw : w ∈ ws) (hr : refreshEsm cfg g h w s = some ((), t)) :
    Step h ⟨⟨s, ws⟩, cs⟩ ⟨⟨t, ws.filter (· ≠ w)⟩, cs⟩
  | take {s t : Store} {ws : List RegistryId} {cs callbacks : List AcceptCallback}
    (ht : takeAccepts h s = some (callbacks, t)) :
    Step h ⟨⟨s, ws⟩, cs⟩ ⟨⟨t, ws⟩, callbacks ++ cs⟩
  | give {s t : Store} {ws : List RegistryId} {cs kept : List AcceptCallback} (hk : kept ⊆ cs)
    (ht : (do
      let now ← host h
      setHost h { now with acceptCallbacks := kept ++ now.acceptCallbacks }) s = some ((), t)) :
    Step h ⟨⟨s, ws⟩, cs⟩ ⟨⟨t, ws⟩, cs⟩
  | pin {s : Store} {ws : List RegistryId} {cs : List AcceptCallback} (hs : List Handle) :
    Step h ⟨⟨s, ws⟩, cs⟩ ⟨⟨{ s with pinned := hs }, ws⟩, cs⟩
  /-- A callback that only reports is registered. -/
  | watch {s t : Store} {ws : List RegistryId} {cs : List AcceptCallback} (name : String)
    (next : Option String) (ht : acceptWith h (.report name next) s = some ((), t)) :
    Step h ⟨⟨s, ws⟩, cs⟩ ⟨⟨t, ws⟩, cs⟩
  /-- A callback that does not patch, or that is told of a module that failed to load. -/
  | accept {s t : Store} {ws : List RegistryId} {cs : List AcceptCallback} {cb cb' : AcceptCallback}
    {module : Option String} (hcb : cb ∈ cs) (hp : module = none ∨ ∀ d, cb ≠ .patch d)
    (ht : runAccept h module cb s = some (cb', t)) : Step h ⟨⟨s, ws⟩, cs⟩ ⟨⟨t, ws⟩, cb' :: cs⟩

/-- A callback patches the latest registry into the canonical one. -/
inductive Patch (h : HostId) (d : DataId) : Serving → Serving → Prop
  | accept {s t : Store} {ws : List RegistryId} {cs : List AcceptCallback} {cb : AcceptCallback}
    (module : String) (hcb : .patch d ∈ cs)
    (ht : runAccept h (some module) (.patch d) s = some (cb, t)) :
    Patch h d ⟨⟨s, ws⟩, cs⟩ ⟨⟨t, ws⟩, cb :: cs⟩

def Next (h : HostId) (S S' : Serving) : Prop := Step h S S' ∨ ∃ d, Patch h d S S'

variable {h : HostId} {s t : Store} {ws : List RegistryId} {cs callbacks : List AcceptCallback}
  {module : Option String}

theorem next_accept {cb cb' : AcceptCallback} (hcb : cb ∈ cs)
    (ht : runAccept h module cb s = some (cb', t)) : Next h ⟨⟨s, ws⟩, cs⟩ ⟨⟨t, ws⟩, cb' :: cs⟩ := by
  by_cases hp : ∀ d, cb ≠ .patch d
  · exact .inl (.accept hcb (.inr hp) ht)
  · obtain ⟨d, rfl⟩ : ∃ d, cb = .patch d := by simpa using hp
    cases module with
    | none => exact .inl (.accept hcb (.inl rfl) ht)
    | some m => exact .inr ⟨d, .accept m hcb ht⟩

theorem runAccepts_run {kept : List AcceptCallback} (hsub : callbacks ⊆ cs)
    (ht : runAccepts h module callbacks s = some (kept, t)) :
    ∃ cs', cs ⊆ cs' ∧ kept ⊆ cs' ∧
      Relation.ReflTransGen (Next h) ⟨⟨s, ws⟩, cs⟩ ⟨⟨t, ws⟩, cs'⟩ := by
  induction callbacks generalizing s kept cs with
  | nil =>
    cases ht
    exact ⟨cs, List.Subset.refl cs, by simp, .refl⟩
  | cons cb rest ih =>
    rw [runAccepts, List.mapM_cons] at ht
    obtain ⟨cb', u, hu, ht⟩ := bind_eq_some.1 ht
    obtain ⟨kept', v, hv, ht⟩ := bind_eq_some.1 ht
    cases ht
    obtain ⟨hcb, hrest⟩ := List.cons_subset.1 hsub
    obtain ⟨cs', hcs, hk, hr⟩ := ih (List.Subset.trans hrest (List.subset_cons_self cb' cs)) hv
    obtain ⟨hcb', hcs⟩ := List.cons_subset.1 hcs
    exact ⟨cs', hcs, List.cons_subset.2 ⟨hcb', hk⟩, .head (next_accept hcb hu) hr⟩

/-- To deliver an update is to take the callbacks, to run them and to give them back. -/
theorem deliverUpdate_run (hd : deliverUpdate h module s = some ((), t)) :
    ∃ cs', Relation.ReflTransGen (Next h) ⟨⟨s, ws⟩, cs⟩ ⟨⟨t, ws⟩, cs'⟩ := by
  obtain ⟨callbacks, u, hu, hd⟩ := bind_eq_some.1 hd
  obtain ⟨kept, v, hv, hd⟩ := bind_eq_some.1 hd
  obtain ⟨w, hw, rfl⟩ := keeping_eq_some.1 hv
  obtain ⟨cs', -, hk, hr⟩ : ∃ cs', callbacks ++ cs ⊆ cs' ∧ kept ⊆ cs' ∧
      Relation.ReflTransGen (Next h) ⟨⟨_, ws⟩, callbacks ++ cs⟩ ⟨⟨w, ws⟩, cs'⟩ :=
    runAccepts_run (List.subset_append_left ..) hw
  refine ⟨cs', ?_⟩
  calc
    Relation.ReflTransGen (Next h) ⟨⟨s, ws⟩, cs⟩ ⟨⟨u, ws⟩, callbacks ++ cs⟩ := .single (.inl (.take hu))
    Relation.ReflTransGen (Next h) _ _ := .single (.inl (.pin _))
    Relation.ReflTransGen (Next h) _ ⟨⟨w, ws⟩, cs'⟩ := hr
    Relation.ReflTransGen (Next h) _ _ := .single (.inl (.pin u.pinned))
    Relation.ReflTransGen (Next h) _ _ := .single (.inl (.give hk hd))

/-- What remains of an update once its module is evaluated: the old callbacks run and are dropped. -/
theorem retire_run (hsub : callbacks ⊆ cs) (hr : retire h callbacks s = some ((), t)) :
    ∃ cs', Relation.ReflTransGen (Next h) ⟨⟨s, ws⟩, cs⟩ ⟨⟨t, ws⟩, cs'⟩ := by
  obtain ⟨x, u, hu, hr⟩ := bind_eq_some.1 hr
  cases hu
  obtain ⟨kept, v, hv, hr⟩ := bind_eq_some.1 hr
  cases hr
  obtain ⟨cs', -, -, hrun⟩ := runAccepts_run hsub hv
  exact ⟨cs', hrun⟩

end Serving

end HotSwap
