import HotSwap.Proofs.Redraw.Redrawn
import HotSwap.Proofs.Scope.Mounted
/-!
# A redirection runs what it affects, once

Nodes are mounted over some cells, each with an effect of its own, components are made, and the cells
are redirected, in any order. Each redirection then runs the effects over its cell and renders the
new component once for each of them, in the order in which they were mounted.
-/

namespace HotSwap

open Machine Store

/-- Renders a component where `scope` is provided, and shows its text in an effect that is held. -/
def Machine.exhibit (scope : Scope) (k : ComponentId) (props : Json) (name : String) :
    Machine Unit := do
  let v ← inScope scope (render k props)
  let e ← newLazyEffect name (.text v)
  hold (.node e)
  execute e

def hungOver (ms : List Mounting) (c : NodeId) : List Mounting :=
  ms.filter fun m => decide (m.cell = c)

namespace Store

/-- Components of `K` stand in the cells of `C`, and nothing reads these. -/
structure Bare (C : NodeId → Prop) (K : ComponentId → Prop) (s : Store) : Prop where
  static : s.Static K
  cell : ∀ c, C c → ∃ k, K k ∧ s.nodes[c]? = some (.cell (some k))
  unread : ∀ c, C c → Edges.readers s.edges c = []
  unborn : ∀ n, s.nodes.length ≤ n → Edges.readers s.edges n = []

def hanging (s : Store) (cell : NodeId) (props : Json) (scope : Scope) (name : String) : Mounting :=
  ⟨cell, props, scope, s.nodes.length, s.nodes.length + 1, name⟩

/-- `s` has come of `s₀` by mounting nodes over cells of `C`, making components, and redirecting the
cells to components of `K`. The mountings are `ms`, in their order. -/
inductive Exhibited (C : NodeId → Prop) (K : ComponentId → Prop) (s₀ : Store) :
    List Mounting → Store → Prop
  | bare (h : s₀.Bare C K) : Exhibited C K s₀ [] s₀
  | mount {ms : List Mounting} {s t : Store} {q k : ComponentId} {p : Proxy} {props : Json}
    {scope : Scope} {name : String} (h : Exhibited C K s₀ ms s)
    (hq : s.components[q]? = some (.proxy p)) (hC : C p.cell)
    (hk : s.nodes[p.cell]? = some (.cell (some k))) (hdev : s.dev k = true)
    (hrun : exhibit scope q props name s = some ((), t)) :
    Exhibited C K s₀ (ms ++ [s.hanging p.cell props scope name]) t
  /-- A component is made, which any cell may hold if it is one of `K`. -/
  | create {ms : List Mounting} {s t : Store} {c : Component} {k : ComponentId}
    (h : Exhibited C K s₀ ms s)
    (hc : K s.components.length → ∃ f, c = .function f ∧ f.body.Static K)
    (hrun : addComponent c s = some (k, t)) : Exhibited C K s₀ ms t
  | redirect {ms : List Mounting} {s t : Store} {cell : NodeId} {k : ComponentId}
    (h : Exhibited C K s₀ ms s) (hC : C cell) (hk : K k)
    (hrun : setCell cell (some k) s = some ((), t)) : Exhibited C K s₀ ms t

def hung (s : Store) (m : Mounting) : Store :=
  { s with
    nodes := s.nodes ++ [.memo { recipe := .mount m.cell m.props m.scope }] ++
      [.effect { name := m.name, body := .text (.dynamic m.node) }]
    live := .node m.effect :: .node m.node :: s.live
    roots := .node m.effect :: s.roots }

variable {C : NodeId → Prop} {K : ComponentId → Prop} {ms : List Mounting} {s₀ s t : Store}
  {cell : NodeId} {props : Json} {scope : Scope} {name : String} {q k : ComponentId}

theorem Bare.exhibits (h : s.Bare C K) : s.Exhibits C K [] fun _ => [] where
  static := h.static
  cell := h.cell
  stands := nofun
  clean := nofun
  shown := nofun
  readers := h.unread
  known := nofun
  nodup _ := List.nodup_nil
  apart := nofun
  unborn := h.unborn

theorem exhibit_eq {p : Proxy} (hq : s.components[q]? = some (.proxy p))
    (hk : s.nodes[p.cell]? = some (.cell (some k))) (hdev : s.dev k = true) (props : Json)
    (scope : Scope) (name : String) :
    exhibit scope q props name s =
      runEffect topCalls (s.nodes.length + 1) (s.hung (s.hanging p.cell props scope name)) := by
  obtain ⟨d, hd⟩ : ∃ d, nesting = d + 1 := ⟨99999, rfl⟩
  have hrender : Machine.inScope scope (render q props) s =
      some (.dynamic s.nodes.length, { s with
        nodes := s.nodes ++ [.memo { recipe := .mount p.cell props scope }]
        live := .node s.nodes.length :: s.live }) := by
    rw [inScope_apply, render, topCalls, hd]
    have hmount := renderComponent_mounts (s := { s with provided := scope }) hq hk
      (by rintro _ ⟨⟩; exact hdev) (calls d) props
    change Option.map _ (renderComponent (calls d) q props { s with provided := scope }) = _
    rw [hmount]
    rfl
  simp only [exhibit, bind_apply, hrender, Option.bind_some, newLazyEffect, addNode, get_apply,
    modify_apply, pure_apply, hold, execute, List.length_append, List.length_singleton]
  rfl

theorem hung_node (s : Store) {m : Mounting} (hm : m.node = s.nodes.length) :
    (s.hung m).nodes[m.node]? = some (.memo { recipe := .mount m.cell m.props m.scope }) := by
  simp [hung, hm]

theorem hung_effect (s : Store) {m : Mounting} (hm : m.effect = s.nodes.length + 1) :
    (s.hung m).nodes[m.effect]? =
      some (.effect { name := m.name, body := .text (.dynamic m.node) }) := by
  simp [hung, hm]

theorem hung_of_some {m : Mounting} {n : NodeId} {x : Node} (hn : s.nodes[n]? = some x) :
    (s.hung m).nodes[n]? = some x :=
  getElem?_append_of_some (getElem?_append_of_some hn)

theorem stands_hung (s : Store) {m : Mounting} (hm : m.node = s.nodes.length)
    (he : m.effect = s.nodes.length + 1) : m.Stands (s.hung m) where
  memo := ⟨_, s.hung_node hm, rfl⟩
  effect := ⟨_, s.hung_effect he, rfl, rfl, rfl⟩
  root := List.mem_cons_self
  effectLive := List.mem_cons_self
  nodeLive := List.mem_cons_of_mem _ List.mem_cons_self

namespace Exhibits

variable {order : NodeId → List NodeId} {m : Mounting} {d : Nat}

theorem hung (h : s.Exhibits C K ms order) (m : Mounting) : (s.hung m).Exhibits C K ms order := by
  have fast {n : NodeId} (hn : s.Fast n) : (s.hung m).Fast n :=
    hn.congr (fun _ hl => List.mem_cons_of_mem _ (List.mem_cons_of_mem _ hl.1))
      (List.subset_cons_self _ _) fun he => ⟨_, hung_of_some he, rfl⟩
  refine h.kept (.of_same fast rfl) h.static (List.subset_cons_self _ _) (by simp [Store.hung])
    (fun c hc => ?_) fun n x hx _ => hung_of_some hx
  obtain ⟨k, hk, hcell⟩ := h.cell c hc
  exact ⟨k, hk, hung_of_some hcell⟩

theorem created (h : s.Exhibits C K ms order) {c : Component}
    (hc : K s.components.length → ∃ f, c = .function f ∧ f.body.Static K) :
    Exhibits C K ms order { s with
      components := s.components ++ [c], live := .component s.components.length :: s.live } := by
  have fast {n : NodeId} (hn : s.Fast n) : Fast { s with
      components := s.components ++ [c], live := .component s.components.length :: s.live } n :=
    hn.congr (fun _ hl => List.mem_cons_of_mem _ hl.1) (List.Subset.refl _) fun he => ⟨_, he, rfl⟩
  refine h.kept (.of_same fast rfl) (fun k x hk hx => ?_) (List.Subset.refl _) (Nat.le_refl _) h.cell
    fun _ _ hx _ => hx
  obtain hlt | rfl : k < s.components.length ∨ k = s.components.length := by
    have hlt := (List.getElem?_eq_some_iff.1 hx).1
    rw [List.length_append, List.length_singleton] at hlt
    exact Nat.lt_or_eq_of_le (Nat.le_of_lt_succ hlt)
  · exact h.static hk ((List.getElem?_append_left hlt).symm.trans hx)
  · obtain rfl : c = x := by simpa using hx
    exact hc hk

theorem mounted (h : s.Exhibits C K ms order) (hC : C m.cell) (hm : m.node = s.nodes.length)
    (he : m.effect = s.nodes.length + 1)
    (hrun : runEffect (calls (d + 2)) m.effect (s.hung m) = some ((), t)) :
    t.Exhibits C K (ms ++ [m]) fun c => relink m.node m.cell c (order c) := by
  obtain ⟨k, hk, hcell⟩ := h.cell _ hC
  have hstands := stands_hung s hm he
  have hshows := Mounting.runEffect_shows hstands (h.hung m).static hk (hung_of_some hcell)
    ⟨_, s.hung_node hm, nofun⟩ d
  rw [hrun] at hshows
  generalize m.draw (calls d) k (s.hung m) = p at hshows
  cases hshows with
  | some hp =>
    obtain ⟨es, -, hshown⟩ := hp
    refine (h.hung m).extended hC hstands (fun r hr => ?_) (fun m' hm' hne => ?_) (by simp) hshown
    · rw [show (s.hung m).edges = s.edges from rfl, hm, h.unborn _ (Nat.le_refl _)] at hr
      cases hr
    · obtain ⟨μ, hμ, -⟩ := (h.stands m' hm').2.memo
      obtain ⟨e, he', -⟩ := (h.stands m' hm').2.effect
      have hnode := (List.getElem?_eq_some_iff.1 hμ).1
      have heffect := (List.getElem?_eq_some_iff.1 he').1
      exact ⟨Nat.ne_of_lt (hm ▸ hnode), Nat.ne_of_lt (he ▸ Nat.lt_succ_of_lt heffect)⟩

theorem relink_hungOver (h : s.Exhibits C K ms order) (m : Mounting) (hm : m.node = s.nodes.length)
    (horder : ∀ c, order c = (hungOver ms c).map Mounting.node) (c : NodeId) :
    relink m.node m.cell c (order c) = (hungOver (ms ++ [m]) c).map Mounting.node := by
  have hfresh : m.node ∉ order c := by
    intro hmem
    obtain ⟨m', hm', hnode, -⟩ := h.known c _ hmem
    obtain ⟨μ, hμ, -⟩ := (h.stands m' hm').2.memo
    rw [hnode, hm] at hμ
    exact Nat.lt_irrefl _ (List.getElem?_eq_some_iff.1 hμ).1
  by_cases hc : c = m.cell
  · subst hc
    rw [relink_self, filter_ne_of_notMem hfresh, horder]
    simp [hungOver, List.filter_append]
  · rw [relink_of_ne hc hfresh, horder]
    simp [hungOver, List.filter_append, Ne.symm hc]

end Exhibits

/-- Over each cell the nodes subscribed in the order in which they were mounted. -/
theorem Exhibited.exhibits (h : Exhibited C K s₀ ms s) :
    s.Exhibits C K ms fun c => (hungOver ms c).map Mounting.node := by
  induction h with
  | bare h => exact h.exhibits
  | @mount ms s t q k p props scope name _ hq hC hk hdev hrun ih =>
    obtain ⟨d, hd⟩ : ∃ d, nesting = d + 2 := ⟨99998, rfl⟩
    rw [exhibit_eq hq hk hdev, topCalls, hd] at hrun
    have hmounted := ih.mounted (m := s.hanging p.cell props scope name) hC rfl rfl hrun
    have horder := ih.relink_hungOver (s.hanging p.cell props scope name) rfl fun _ => rfl
    exact funext horder ▸ hmounted
  | @create ms s t c k _ hc hrun ih =>
    cases hrun
    exact ih.created hc
  | @redirect ms s t cell k _ hC hk hrun ih =>
    obtain ⟨d, hd⟩ : ∃ d, nesting = d + 4 := ⟨99996, rfl⟩
    have hover : ∀ m ∈ hungOver ms cell, m ∈ ms ∧ m.cell = cell := by simp [hungOver]
    rw [ih.setCell_eq hC hk hover rfl hd] at hrun
    obtain ⟨sights, hsights, hredrawn⟩ := (ih.redirected hC hk).redrawn_of_marks hover hk
      (ih.redirected_cell hC k) hrun
    refine hredrawn.exhibits_again (ih.redirected hC hk) (fun o ho => hover o.1 ?_) (by rw [hsights])
    exact hsights ▸ List.mem_map_of_mem ho

end Store

/-- A redirection runs the effects over its cell, each once, in the order in which their nodes were
mounted. For each of them the component is rendered once, with the props of the node and what
surrounded it, and the effect observes the text. Nothing else runs, but what the body itself renders. -/
theorem redirect_reruns {C : NodeId → Prop} {K : ComponentId → Prop} {ms : List Mounting}
    {s₀ s : Store} (h : Exhibited C K s₀ ms s) {cell : NodeId} (hC : C cell) {k : ComponentId}
    (hk : K k) {f : FunctionComponent} (hf : s.components[k]? = some (.function f)) {d : Nat}
    (hd : d + 4 ≤ nesting) (look : Mounting → View × List Event)
    (hlook : ∀ m ∈ hungOver ms cell, ∃ u, m.draw (calls d) k s = some ((look m).1, u) ∧
      u.trace = (look m).2 ++ s.trace) :
    (∃ t, setCell cell (some k) s = some ((), t) ∧
      t.trace = ((hungOver ms cell).reverse.flatMap fun m =>
        m.told k (look m).1 (look m).2) ++ s.trace ∧
      ∀ (n : NodeId) (e : Effect), s.nodes[n]? = some (.effect e) → t.nodes[n]? = some (.effect
        (if n ∈ (hungOver ms cell).map Mounting.effect then
          { e with runs := e.runs + 1, dependencies := 1 } else e))) ∧
    ∀ m ∈ hungOver ms cell, ∃ inner, (look m).2 = inner ++ [.render k f.name] ∧
      ∀ K', s.Static K' → f.body.Static K' → ∀ e ∈ inner, e.From K' := by
  obtain ⟨d', hd'⟩ := Nat.exists_eq_add_of_le hd
  have hdepth : nesting = (d + d') + 4 := by omega
  have hs := h.exhibits
  have hover : ∀ m ∈ hungOver ms cell, m ∈ ms ∧ m.cell = cell := by simp [hungOver]
  constructor
  · have hs' := hs.redirected hC hk
    obtain ⟨t, hrun, hredrawn⟩ := hs'.marks_of_draws (d := d + d') hover hk (hs.redirected_cell hC k)
      (hs.agrees_redirected hC k) fun m hm => by
        obtain ⟨u, hdraw, htrace⟩ := hlook m hm
        exact ⟨u, Mounting.draw_le (Nat.le_add_right d d') hdraw, htrace⟩
    refine ⟨t, (hs.setCell_eq hC hk hover rfl hdepth).trans hrun, ?_, fun n e he => ?_⟩
    · rw [hredrawn.trace, ← List.map_reverse, List.flatMap_map]
      rfl
    · have hsights : ((hungOver ms cell).map fun m => (m, look m)).map Prod.fst = hungOver ms cell := by
        rw [List.map_map]
        exact List.map_id _
      have hnodup : (hungOver ms cell).Nodup :=
        List.Pairwise.of_map Mounting.node (fun _ _ hne e => hne (e ▸ rfl)) (hs.nodup cell)
      have heffect := hredrawn.effects hs' (by simpa using fun m hm => (hover m hm).1)
        (hsights.symm ▸ hnodup) (hs.redirected_effect hC k he)
      rwa [hsights] at heffect
  · intro m hm
    obtain ⟨u, hdraw, htrace⟩ := hlook m hm
    exact Mounting.draw_events hs.static hk hf hdraw htrace

namespace Store

/-- Two proxies over cells that hold the same component. -/
def gallery : Store where
  nodes := [.cell (some 0), .cell (some 0)]
  components := [
    .function ⟨"old", "old", true, .empty, .text (.literal (.string "old"))⟩,
    .proxy ⟨"left", none, 0⟩,
    .proxy ⟨"right", none, 1⟩]

theorem gallery_bare : gallery.Bare (· ∈ [0, 1]) (· ∈ [0, 3]) where
  static k c hk hc := by
    obtain rfl | rfl : k = 0 ∨ k = 3 := by simpa using hk
    · cases hc
      exact ⟨_, rfl, trivial⟩
    · cases hc
  cell c hc := by
    obtain rfl | rfl : c = 0 ∨ c = 1 := by simpa using hc
    · exact ⟨0, by simp, rfl⟩
    · exact ⟨0, by simp, rfl⟩
  unread _ _ := rfl
  unborn _ _ := rfl

def leave (m : Machine α) (s : Store) : Store := ((m s).map Prod.snd).getD s

/-- A node over the left cell. -/
def gallery₁ : Store := leave (exhibit [] 1 (.string "a") "first") gallery

/-- A node over the right cell. -/
def gallery₂ : Store := leave (exhibit [] 2 (.string "b") "second") gallery₁

/-- Another one over the left cell. -/
def gallery₃ : Store := leave (exhibit [] 1 (.string "c") "third") gallery₂

/-- A component that shows its props. -/
def gallery₄ : Store := leave (newFunction "new" "new" false (.text .props)) gallery₃

def first : Mounting := gallery.hanging 0 (.string "a") [] "first"

def second : Mounting := gallery₁.hanging 1 (.string "b") [] "second"

def third : Mounting := gallery₂.hanging 0 (.string "c") [] "third"

theorem gallery_exhibited :
    Exhibited (· ∈ [0, 1]) (· ∈ [0, 3]) gallery ([] ++ [first] ++ [second] ++ [third]) gallery₄ := by
  have h₁ : Exhibited (· ∈ [0, 1]) (· ∈ [0, 3]) gallery ([] ++ [first]) gallery₁ :=
    .mount (q := 1) (p := ⟨"left", none, 0⟩) (k := 0) (.bare gallery_bare) rfl (by decide) rfl rfl rfl
  have h₂ : Exhibited (· ∈ [0, 1]) (· ∈ [0, 3]) gallery ([] ++ [first] ++ [second]) gallery₂ :=
    .mount (q := 2) (p := ⟨"right", none, 1⟩) (k := 0) h₁ rfl (by decide) rfl rfl rfl
  have h₃ : Exhibited (· ∈ [0, 1]) (· ∈ [0, 3]) gallery ([] ++ [first] ++ [second] ++ [third])
      gallery₃ :=
    .mount (q := 1) (p := ⟨"left", none, 0⟩) (k := 0) h₂ rfl (by decide) rfl rfl rfl
  exact .create (c := .function ⟨"new", "new", false, .empty, .text .props⟩) (k := 3) h₃
    (fun _ => ⟨_, rfl, trivial⟩) rfl

/-- Both nodes over the left cell show the new component, with the props of each, and the node over
the right cell does not run. -/
theorem gallery_redirected : ∃ t, setCell 0 (some 3) gallery₄ = some ((), t) ∧
    t.trace = third.told 3 (.text "c") [.render 3 "new"] ++
      (first.told 3 (.text "a") [.render 3 "new"] ++ gallery₄.trace) := by
  have hover : ∀ m ∈ hungOver ([] ++ [first] ++ [second] ++ [third]) 0, m = first ∨ m = third := by
    intro m hm
    obtain ⟨rfl | rfl | rfl, hcell⟩ : (m = first ∨ m = second ∨ m = third) ∧ m.cell = 0 := by
      simpa [hungOver] using hm
    · exact .inl rfl
    · cases hcell
    · exact .inr rfl
  obtain ⟨⟨t, hrun, htrace, -⟩, -⟩ := redirect_reruns gallery_exhibited (by decide : 0 ∈ [0, 1])
    (by decide : 3 ∈ [0, 3]) rfl (d := 1) (by decide)
    (fun m => (.text m.props.plain, [.render 3 "new"])) fun m hm => by
      obtain rfl | rfl := hover m hm
      · exact ⟨_, rfl, rfl⟩
      · exact ⟨_, rfl, rfl⟩
  exact ⟨t, hrun, htrace⟩

end Store

end HotSwap
