import HotSwap.Proofs.Graph.Propagation
import HotSwap.Proofs.Subscription.Reading
/-!
# Telling readers over an accurate store

Between operations nothing runs. A notification marks memos, which tell their own readers, and runs
effects one after the other: each in a frame of its own, with nobody waiting below.
-/

namespace HotSwap

open Machine Store

variable {s t : Store} {n : NodeId} {d : Nat}

theorem Store.Proceeds.at_rest (hp : s.Proceeds t) (hf : s.frames = []) : t.frames = [] := by
  obtain ⟨_, _, hr⟩ := hp
  have hmap := hr.readers
  rw [hf] at hmap
  exact List.map_eq_nil_iff.1 hmap

/-- A node that exists and, if it is an effect, is held from outside. -/
def Store.Rooted (s : Store) (n : NodeId) : Prop :=
  ∃ x, s.nodes[n]? = some x ∧ ∀ e, x = .effect e → .node n ∈ s.roots

theorem Store.Rooted.proceeds (h : s.Rooted n) (hp : s.Proceeds t) : t.Rooted n := by
  obtain ⟨x, hx, hroot⟩ := h
  obtain ⟨y, hy, hrole⟩ := hp.retains.node hx
  refine ⟨y, hy, ?_⟩
  rintro e rfl
  obtain ⟨e', rfl, -⟩ := Node.effect_of_role hrole.symm
  exact hp.retains.roots (hroot e' rfl)

theorem runEffect_proceeds {e : Effect} (h : s.Accurate) (hf : s.frames = [])
    (he : s.nodes[n]? = some (.effect e)) (hd : e.disposed = false) (hroot : .node n ∈ s.roots)
    (ht : runEffect (calls d) n s = some ((), t)) : s.Proceeds t := by
  have hnot : n ∉ s.running := by simp [running, hf]
  have hanchored : s.Anchored (.node n) := .root (List.mem_append_left _ hroot)
  have hent := h.entered hnot hanchored ⟨_, he, hd⟩
  have hrank : ∀ k ∈ (s.entered n).running, (s.entered n).rank k = .effect := by
    intro k hk
    obtain rfl : k = n := by simpa [running, entered, hf] using hk
    exact rank_of_node (s := s.entered k) he
  have hadmits : (s.entered n).Admits (fun y => s.rank y < .effect) True :=
    ⟨fun y hy => hy, fun y hy k hk => (hrank k hk).symm ▸ hy, fun _ => hrank⟩
  have hoffers : ∀ a ∈ e.body.handles, (s.entered n).Offers a := by
    refine fun a ha => (retains_entered s n).offers (.step h.toHolding hanchored ?_)
    simpa [binds, he, Node.role, Node.handles] using ha
  obtain ⟨v, u, hu, hend⟩ := runEffect_eq_some he hd ht
  obtain ⟨hp, -⟩ := Expr.eval_gives (calls_exact d) {} e.body (h.node he) hent hadmits hoffers hu
  obtain ⟨y, hy, hrole⟩ := hp.retains.node he
  obtain ⟨e', rfl, -⟩ := Node.effect_of_role hrole
  obtain ⟨count, hcount, rfl⟩ := hend e' hy
  -- the counts are taken at the end of the run, as if the effect still ran
  have hrun : n ∈ u.running := hp.running ▸ List.mem_cons_self
  have hset := hp.1.set (y := .effect { e' with runs := e'.runs + 1, dependencies := count })
    hy rfl (fun hn => absurd hrun hn) fun a ha => .inl ha
  have hp' := hp.trans ⟨hset, [], .of_retains (.set hy rfl) rfl rfl⟩
  have hran := Ran.of_told h he trivial (fun _ => rfl) hnot hp' (e := .effect n e.name v)
    (by simp [Event.closes]) rfl (by
      intro xs hxs f hf'
      rw [List.getElem?_set_self (List.getElem?_eq_some_iff.1 hy).1] at hf'
      cases hf'
      rw [← hcount, show u.frames = _ from hxs]
      rfl)
  exact hran.proceeds

theorem runEffect_gives (h : s.Accurate) (hf : s.frames = [])
    (hroot : ∀ e, s.nodes[n]? = some (.effect e) → .node n ∈ s.roots) :
    Gives s (runEffect (calls d) n) fun _ _ => True := by
  by_cases hex : ∃ e, s.nodes[n]? = some (.effect e)
  · obtain ⟨e, he⟩ := hex
    cases hd : e.disposed with
    | true => exact .of_eq (runEffect_of_disposed (calls d) he hd) (.refl h) trivial
    | false => exact fun _ _ ht => ⟨runEffect_proceeds h hf he hd (hroot e he) ht, trivial⟩
  · exact .of_eq (runEffect_of_ne (calls d) fun e he => hex ⟨e, he⟩) (.refl h) trivial

theorem mark_gives (hc : ∀ {s : Store} (n : NodeId), s.Accurate → s.frames = [] →
      Gives s ((calls d).notify n) fun _ _ => True) (h : s.Accurate) (hf : s.frames = []) :
    Gives s (mark (calls d) n) fun _ _ => True := by
  refine .bind_of_eq (node?_apply n s) ?_
  split
  · rename_i m hm
    unfold markMemo
    split
    · have hset := h.set (y := .memo { m with freshness := .maybeDirty }) hm rfl (fun _ => nofun)
        fun a ha => .inl ha
      refine .bind (Q := fun _ _ => True) (.of_eq (setNode_apply n _ s)
        ⟨hset, [], .of_retains (.set hm rfl) rfl rfl⟩ trivial) fun _ t hp _ => ?_
      exact hc n hp.1 (hp.at_rest hf)
    · exact .pure h trivial
  · exact .emit h rfl
  · exact .pure h trivial

theorem schedule_gives (h : s.Accurate) (hf : s.frames = []) (hn : s.Rooted n) :
    Gives s (schedule (calls d) n) fun _ _ => True := by
  obtain ⟨x, hx, hroot⟩ := hn
  refine .bind_of_eq (node?_apply n s) ?_
  split
  · exact runEffect_gives h hf fun e he => hroot e (Option.some.inj (hx.symm.trans he))
  · exact .emit h rfl
  · exact .pure h trivial

theorem forEach_gives {act : NodeId → Machine Unit} (hact : ∀ (s : Store) (n : NodeId), s.Accurate →
      s.frames = [] → s.Rooted n → Gives s (act n) fun _ _ => True) :
    ∀ (ns : List NodeId) {s : Store}, s.Accurate → s.frames = [] → (∀ n ∈ ns, s.Rooted n) →
      Gives s (forEach act ns) fun _ _ => True
  | [], _, h, _, _ => .pure h trivial
  | n :: ns, _, h, hf, hns =>
    .bind (hact _ n h hf (hns n List.mem_cons_self)) fun _ _ hp _ =>
      forEach_gives hact ns hp.1 (hp.at_rest hf)
        fun k hk => (hns k (List.mem_cons_of_mem _ hk)).proceeds hp

theorem notify_gives (d : Nat) : ∀ {s : Store} (n : NodeId), s.Accurate → s.frames = [] →
    Gives s ((calls d).notify n) fun _ _ => True := by
  induction d with
  | zero =>
    rintro s n _ _ _ _ ⟨⟩
  | succ d ih =>
    intro s n h hf
    have htargets : ∀ k ∈ (Edges.readers s.edges n).filter s.isLive, s.Rooted k := by
      intro k hk
      obtain ⟨hl, x, hx, _⟩ := h.member (List.mem_filter.1 hk).1
      refine ⟨x, hx, ?_⟩
      rintro e rfl
      exact h.owned hx hl
    have hmark := forEach_gives (fun _ n h hf _ => mark_gives (n := n) ih h hf) _ h hf htargets
    refine .bind_of_eq (m := liveReaders n) rfl (.bind hmark fun _ t hp _ => ?_)
    exact forEach_gives (fun _ _ => schedule_gives) _ hp.1 (hp.at_rest hf)
      fun k hk => (htargets k hk).proceeds hp

end HotSwap
