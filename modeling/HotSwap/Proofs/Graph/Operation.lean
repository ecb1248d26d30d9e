import HotSwap.Proofs.Graph.Propagation
import HotSwap.Proofs.Program.Action
/-!
# What a program does with a graph

A program makes signals, memos and effects, and uses and drops them. `Reached` are the stores that it
sees between operations, if each of them ends. In all of them everything is up to date.
-/

namespace HotSwap

open Machine

inductive Operation
  | signal (value : Json)
  | memo (name : String) (body : LinkedExpr)
  | effect (name : String) (body : LinkedExpr) (deferred : Bool)
  | set (signal : NodeId) (value : Json)
  | update (signal : NodeId) (body : LinkedExpr)
  | read (source : NodeId)
  | markMaybeDirty (memo : NodeId)
  | execute (effect : NodeId)
  | dispose (effect : NodeId)
  | hold (node : NodeId)
  | release (node : NodeId)

namespace Operation

def run (c : Calls) : Operation → Machine Unit
  | .signal v => do Machine.hold (.node (← newSignal v))
  | .memo name body => do Machine.hold (.node (← newMemo name body))
  | .effect name body deferred => do
    let n ← newLazyEffect name body
    Machine.hold (.node n)
    if deferred then pure () else runEffect c n
  | .set n v => write c n v
  | .update n body => do
    let v ← body.eval c { current := ← peek n }
    write c n v
  | .read n => do let _ ← c.read n
  | .markMaybeDirty n => mark c n
  | .execute n => runEffect c n
  | .dispose n => disposeEffect n
  | .hold n => Machine.hold (.node n)
  | .release n => Machine.release (.node n)

/-- Memos and updates only read, effects may do anything but render views, and what a new body reads
is there. -/
def Allowed (s : Store) : Operation → Prop
  | .memo _ body => body.onlyReads = true ∧ ∀ y ∈ body.gets, y < s.nodes.length ∧ .node y ∈ s.live
  | .effect _ body _ =>
    body.viewless = true ∧ ∀ y ∈ body.gets, y < s.nodes.length ∧ .node y ∈ s.live
  | .update _ body => body.onlyReads = true
  | _ => True

theorem run_within {R : Store → Store → Prop} {c : Calls} (hR : Accommodating R)
    (hc : c.Within R c) (o : Operation) : Within R (o.run c) (o.run c) := by
  have hA := hR.toAdmissible
  have hhold (n : NodeId) : Within R (Machine.hold (.node n)) (Machine.hold (.node n)) :=
    fun s => .of_eq rfl rfl (hR.roots s _)
  cases o with
  | signal v => exact .bind hA.trans (fun s => .of_eq rfl rfl (hR.addSignal s v)) hhold
  | memo name body => exact .bind hA.trans (fun s => .of_eq rfl rfl (hR.addMemo nofun)) hhold
  | effect name body deferred =>
    refine .bind hA.trans (fun s => .of_eq rfl rfl (hR.addEffect s _)) fun n =>
      .bind hA.trans (hhold n) fun _ => ?_
    cases deferred with
    | true => exact .of_pure hR.refl ()
    | false => exact runEffect_within hA hc n
  | set n v => exact write_within hA hc n v
  | update n body =>
    exact .bind hA.trans (peek_within hA n) fun _ =>
      .bind hA.trans (Expr.eval_within hA hc _ body) fun v => write_within hA hc n v
  | read n => exact .discard hA (hc.read n)
  | markMaybeDirty n => exact mark_within hA hc n
  | execute n => exact runEffect_within hA hc n
  | dispose n => exact disposeEffect_within hA n
  | hold n => exact hhold n
  | release n => exact release_within hA _

end Operation

namespace Store

variable {P : Set NodeId} {s t : Store} {n : NodeId} {d : Nat}

def added (s : Store) (x : Node) : Store :=
  { s with nodes := s.nodes ++ [x], live := .node s.nodes.length :: s.live }

theorem nodes_added_self (s : Store) (z : Node) : (s.added z).nodes[s.nodes.length]? = some z :=
  List.getElem?_concat_length

theorem nodes_added_of_ne {k : NodeId} {z : Node} (hk : k ≠ s.nodes.length) :
    (s.added z).nodes[k]? = s.nodes[k]? := by
  rcases Nat.lt_or_gt_of_ne hk with hlt | hgt
  · exact List.getElem?_append_left hlt
  · rw [List.getElem?_eq_none (Nat.le_of_lt hgt), added, List.getElem?_eq_none]
    rw [List.length_append, List.length_singleton]
    exact hgt

theorem Calm.added (h : s.Calm P) (hf : s.frames = []) {x : Node} (hx : x.Placed s.nodes.length)
    (hlive : ∀ body y, x.body? = some body → y ∈ body.gets → .node y ∈ s.live)
    (hmemo : ∀ m, x = .memo m → m.value = none) (heffect : ∀ e, x = .effect e → e.runs = 0) :
    (s.added x).Calm P := by
  have hself := s.nodes_added_self x
  have hne {k : NodeId} (hk : k ≠ s.nodes.length) := nodes_added_of_ne (z := x) hk
  have hbody {k : NodeId} (hk : k ≠ s.nodes.length) : (s.added x).body? k = s.body? k :=
    body?_congr (hne hk)
  have hfeeds {y k : NodeId} (hk : s.Feeds y k) : (s.added x).Feeds y k := by
    obtain ⟨body, hb, hy⟩ := hk
    exact ⟨body, (hbody (Nat.ne_of_lt (lt_of_body? hb))).trans hb, hy⟩
  have hgraph : (s.added x).Graph := by
    refine ⟨fun {k z} hk => ?_, fun {k y} hk hl => ?_, fun hk => hfeeds (h.sound.graph.edges hk),
      h.sound.graph.nodup, fun hr => ?_⟩
    · by_cases hkn : k = s.nodes.length
      · subst hkn
        cases hself.symm.trans hk
        exact hx
      · exact h.sound.graph.placed ((hne hkn).symm.trans hk)
    · obtain ⟨body, hb, hy⟩ := hk
      refine List.mem_cons_of_mem _ ?_
      by_cases hkn : k = s.nodes.length
      · subst hkn
        obtain ⟨z, hz, hzb⟩ := body?_eq_some.1 hb
        cases hself.symm.trans hz
        exact hlive body y hzb hy
      · refine h.sound.graph.closed ⟨body, (hbody hkn).symm.trans hb, hy⟩ ?_
        exact (List.mem_cons.1 hl).resolve_left fun e => hkn (by injection e)
    · obtain ⟨body, hb⟩ := h.sound.graph.past hr
      exact ⟨body, (hbody (Nat.ne_of_lt (lt_of_body? hb))).trans hb⟩
  refine ⟨⟨hgraph, fun {k} hl hk => ?_, fun {k e} he ho _ => ?_⟩, fun k _ => by simp [Store.added, hf]⟩
  · by_cases hkn : k = s.nodes.length
    · subst hkn
      constructor
      · intro name body value freshness hm hfresh
        exact absurd (hmemo _ (Option.some.inj (hself.symm.trans hm))) (hfresh _ hm).2
      · intro e he _ _ hruns
        exact absurd (heffect e (Option.some.inj (hself.symm.trans he))) (Nat.ne_of_gt hruns)
    · have hl' : .node k ∈ s.live :=
        (List.mem_cons.1 hl).resolve_left fun e => hkn (by injection e)
      refine (h.sound.consistent hl' hk).keep (hne hkn) rfl (·.congr (hne hkn).symm) fun z hz hfr => ?_
      obtain ⟨body, hb, hy⟩ := h.sound.graph.edges hz
      have hzn : z ≠ s.nodes.length := Nat.ne_of_lt
        (Nat.lt_trans (h.sound.graph.lt_of_feeds ⟨body, hb, hy⟩) (lt_of_body? hb))
      exact ⟨hz, hfr.congr (hne hzn), cached_congr (hne hzn)⟩
  · by_cases hkn : k = s.nodes.length
    · refine openReads_of_forall_ne fun r y v hr e => ?_
      obtain ⟨body, hb⟩ := h.sound.graph.past hr
      exact absurd (lt_of_body? hb) (Nat.not_lt.2 (e.trans hkn).ge)
    · exact h.sound.idle ((hne hkn).symm.trans he) ho (by simp [hf])

/-- `t` comes out of `s` by operations that end, each of which `may` happen where it does. -/
inductive Evolves (may : Store → Operation → Prop) (s : Store) : Store → Prop
  | refl : Evolves may s s
  | step {t u : Store} (o : Operation) (d : Nat) : Evolves may s t → o.Allowed t → may t o →
    o.run (calls d) t = some ((), u) → Evolves may s u

def Reached (s : Store) : Prop := Evolves (fun _ _ => True) {} s

theorem Reached.step (o : Operation) (d : Nat) (h : Reached s) (ho : o.Allowed s)
    (ht : o.run (calls d) s = some ((), t)) : Reached t := Evolves.step o d h ho trivial ht

theorem calm_start : Calm ∅ {} where
  sound :=
    { graph :=
        { placed := by simp
          closed := by simp
          edges := fun h => by cases h
          nodup := fun _ => List.Pairwise.nil
          past := by simp }
      consistent := by simp
      idle := by simp }
  unobserving := by simp

theorem execute_calm (h : s.Calm P) (ht : runEffect (calls d) n s = some ((), t)) : t.Calm P := by
  by_cases he : ∃ e, s.nodes[n]? = some (.effect e)
  · obtain ⟨e, he⟩ := he
    exact runEffect_calm (calls_settle d) (h.mono fun _ _ => .inl) he ht
  · cases (runEffect_of_ne (calls d) fun e hn => he ⟨e, hn⟩).symm.trans ht
    exact h

theorem Calm.run (h : s.Calm P) (hf : s.frames = []) (o : Operation) (ho : o.Allowed s)
    (ht : o.run (calls d) s = some ((), t)) : t.Calm P := by
  have hc := calls_settle d
  have hmay (n : NodeId) : s.MayRead n := fun r hr => by simp [reader?, hf] at hr
  have told (n : NodeId) : s.Calm (P ∪ {n}) := h.mono fun _ _ => .inl
  cases o with
  | signal v =>
    have hadd := h.added hf (.signal v) (by rintro _ _ ⟨⟩) (by rintro _ ⟨⟩) (by rintro _ ⟨⟩)
    cases ht
    exact hadd.congr rfl rfl rfl rfl fun _ => .rfl
  | memo name body =>
    have hadd := h.added hf (x := .memo { recipe := .value name body })
      (.memo ho.1 (fun y hy => (ho.2 y hy).1) (by rintro _ ⟨⟩))
      (fun _ y hb hy => by cases hb; exact (ho.2 y hy).2) (fun _ e => by cases e; rfl)
      (by rintro _ ⟨⟩)
    cases ht
    exact hadd.congr rfl rfl rfl rfl fun _ => .rfl
  | effect name body deferred =>
    have hadd := h.added hf (x := .effect { name, body }) (.effect ho.1 fun y hy => (ho.2 y hy).1)
      (fun _ y hb hy => by cases hb; exact (ho.2 y hy).2) (by rintro _ ⟨⟩)
      (fun _ e => by cases e; rfl)
    have hheld : Calm P { s.added (.effect { name, body }) with
        roots := .node s.nodes.length :: s.roots } := hadd.congr rfl rfl rfl rfl fun _ => .rfl
    obtain ⟨_, u, hu, ht⟩ := bind_eq_some.1 ht
    cases hu
    obtain ⟨_, u, hu, ht⟩ := bind_eq_some.1 ht
    cases hu
    cases deferred with
    | true =>
      cases ht
      exact hheld
    | false => exact execute_calm hheld ht
  | set n v => exact write_calm hc h ht
  | update n body =>
    obtain ⟨_, u, hu, ht⟩ := bind_eq_some.1 ht
    cases peek_eq_some hu
    obtain ⟨v, u, hu, ht⟩ := bind_eq_some.1 ht
    exact write_calm hc (Expr.eval_calm hc _ body (Expr.viewless_of_onlyReads body ho)
      (fun y _ => hmay y) h hu) ht
  | read n =>
    obtain ⟨_, u, hu, ht⟩ := bind_eq_some.1 ht
    cases ht
    exact h.of_observes (calls_read h.sound (fun _ _ hk => hk.elim) (hmay n) hu).2
  | markMaybeDirty n =>
    by_cases hm : ∃ m, s.nodes[n]? = some (.memo m)
    · obtain ⟨m, hm⟩ := hm
      exact mark_calm hc (told n) hm ht
    · cases (mark_of_not_memo (calls d) h.sound.graph fun m hn => hm ⟨m, hn⟩).symm.trans ht
      exact h
  | execute n => exact execute_calm h ht
  | dispose n => exact disposeEffect_calm h ht
  | hold n =>
    cases ht
    exact h.congr rfl rfl rfl rfl fun _ => .rfl
  | release n => exact release_calm h ht

theorem frames_run (hf : s.frames = []) (o : Operation)
    (ht : o.run (calls d) s = some ((), t)) : t.frames = [] := by
  have hframes := (o.run_within accommodating_steady (indifferent_steady.calls_self d) _ ht).2.readers
  rw [hf] at hframes
  exact List.map_eq_nil_iff.1 hframes

theorem Evolves.calm {may : Store → Operation → Prop} (h : Evolves may s t) (hs : s.Calm P)
    (hf : s.frames = []) : t.Calm P ∧ t.frames = [] := by
  induction h with
  | refl => exact ⟨hs, hf⟩
  | step o d _ ho _ ht ih => exact ⟨ih.1.run ih.2 o ho ht, frames_run ih.2 o ht⟩

theorem accommodating_lasts : Accommodating Lasts where
  toAdmissible := indifferent_lasts.toAdmissible
  addSignal _ _ := ⟨fun h => ⟨_, getElem?_append_of_some h, rfl⟩⟩
  addEffect _ _ := ⟨fun h => ⟨_, getElem?_append_of_some h, rfl⟩⟩
  addFunction s _ := { Lasts.refl s with }
  contexts s _ _ _ := { Lasts.refl s with }
  dirty h := .set h rfl
  properties _ _ := { Lasts.refl _ with }

theorem Evolves.lasts {may : Store → Operation → Prop} (h : Evolves may s t) : s.Lasts t := by
  induction h with
  | refl => exact .refl s
  | step o d _ _ _ ht ih =>
    exact ih.trans (o.run_within accommodating_lasts (indifferent_lasts.calls_self d) _ ht).2

theorem Lasts.leads (h : s.Lasts t) {k : NodeId} (hn : s.Leads n k) : t.Leads n k :=
  Relation.ReflTransGen.mono (fun _ _ => h.feeds) _ _ hn

/-- Between operations everything is up to date and nothing runs. -/
theorem Reached.calm (h : Reached s) : s.Calm ∅ ∧ s.frames = [] := Evolves.calm h calm_start rfl

end Store

example (n : NodeId) (v : Json) : (Operation.set n v).run topCalls = setSignal n v := rfl

example (n : NodeId) : (Operation.execute n).run topCalls = Machine.execute n := rfl

example (n : NodeId) : (Operation.markMaybeDirty n).run topCalls = Machine.markMaybeDirty n := rfl

end HotSwap
