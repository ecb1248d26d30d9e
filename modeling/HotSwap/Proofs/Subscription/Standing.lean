import HotSwap.Proofs.Evaluation.Lasting
import HotSwap.Proofs.Graph.Basic
import HotSwap.Proofs.Subscription.Body
import HotSwap.Proofs.Subscription.Run
/-!
# What stays while bodies run

Bodies that write nothing change only what memos have cached and what effects have counted. All else
of a node is its role. What is held through roles alone, from outside or by a running computation,
cannot be let go while they run.
-/

namespace HotSwap

namespace Node

/-- A node without its caches and counts. -/
def role : Node → Node
  | .signal _ => .signal .null
  | .memo m => .memo { recipe := m.recipe }
  | .effect e => .effect { e with runs := 0, dependencies := 0 }
  | x => x

def rank (n : NodeId) : Node → Rank
  | .memo { recipe := .value _ _, .. } => .source n
  | .memo _ => .view
  | .effect _ => .effect
  | _ => .source n

def Computes : Node → Prop
  | .memo _ => True
  | .effect e => e.disposed = false
  | _ => False

def Tells : Node → Prop
  | .memo { recipe := .value _ _, .. } => True
  | .effect _ => True
  | _ => False

instance : DecidablePred Node.Computes
  | .memo _ => isTrue trivial
  | .effect e => inferInstanceAs (Decidable (e.disposed = false))
  | .signal _ | .cell _ | .probe _ _ | .observer => isFalse id

instance (x : Option Node) : Decidable (∃ k, x = some (.cell k)) :=
  match x with
  | some (.cell k) => isTrue ⟨k, rfl⟩
  | some (.signal _) | some (.memo _) | some (.effect _) | some (.probe _ _) | some .observer
  | none => isFalse nofun

variable {x y : Node} {n : NodeId}

@[simp] theorem gist_role (x : Node) : x.role.gist = x.gist := by cases x <;> rfl

@[simp] theorem rank_gist (x : Node) (n : NodeId) : x.gist.rank n = x.rank n := by
  cases x with
  | memo m =>
    obtain ⟨recipe, _, _⟩ := m
    cases recipe <;> rfl
  | _ => rfl

@[simp] theorem computes_role (x : Node) : x.role.Computes ↔ x.Computes := by cases x <;> rfl

@[simp] theorem tells_gist (x : Node) : x.gist.Tells ↔ x.Tells := by
  cases x with
  | memo m =>
    obtain ⟨recipe, _, _⟩ := m
    cases recipe <;> rfl
  | _ => rfl

@[simp] theorem lastRun_gist (x : Node) (n : NodeId) (es : List Event) :
    lastRun n es x.gist = lastRun n es x := by
  cases x with
  | memo m =>
    obtain ⟨recipe, _, _⟩ := m
    cases recipe <;> rfl
  | _ => rfl

theorem handles_role_subset (x : Node) : x.role.handles ⊆ x.handles := by
  cases x with
  | memo m => simp [role, handles]
  | _ => exact List.Subset.refl _

theorem gist_congr (h : y.role = x.role) : y.gist = x.gist := by rw [← gist_role, h, gist_role]

theorem rank_congr (h : y.gist = x.gist) (n : NodeId) : y.rank n = x.rank n := by
  rw [← rank_gist, h, rank_gist]

theorem computes_congr (h : y.role = x.role) : y.Computes ↔ x.Computes := by
  rw [← computes_role, h, computes_role]

theorem tells_congr (h : y.gist = x.gist) : y.Tells ↔ x.Tells := by
  rw [← tells_gist, h, tells_gist]

theorem lastRun_congr (h : y.gist = x.gist) (n : NodeId) (es : List Event) :
    lastRun n es y = lastRun n es x := by
  rw [← lastRun_gist, h, lastRun_gist]

theorem cell_of_gist {k : Option ComponentId} (h : y.gist = (Node.cell k).gist) :
    ∃ j, y = .cell j := by
  cases y with
  | cell j => exact ⟨j, rfl⟩
  | _ => cases h

theorem cell_of_role {k : Option ComponentId} (h : y.role = (Node.cell k).role) : y = .cell k := by
  cases y with
  | cell j => exact h
  | _ => cases h

theorem memo_of_role {m : Memo} (h : y.role = (Node.memo m).role) :
    ∃ m', y = .memo m' ∧ m'.recipe = m.recipe := by
  cases y with
  | memo m' =>
    injection h with h
    injection h with h
    exact ⟨m', rfl, h⟩
  | _ => cases h

theorem effect_of_role {e : Effect} (h : y.role = (Node.effect e).role) :
    ∃ e', y = .effect e' ∧ e'.name = e.name ∧ e'.body = e.body ∧ e'.disposed = e.disposed := by
  cases y with
  | effect e' =>
    injection h with h
    injection h with hname hbody hdisposed
    exact ⟨e', rfl, hname, hbody, hdisposed⟩
  | _ => cases h

end Node

namespace Store

variable {s t u : Store} {n : NodeId} {x : Node} {h h' : Handle}

def rank (s : Store) (n : NodeId) : Rank := ((s.nodes[n]?).map (Node.rank n)).getD .effect

def binds (s : Store) : Handle → List Handle
  | .node n => ((s.nodes[n]?).map fun x => x.role.handles).getD []
  | .component k => ((s.components[k]?).map Component.handles).getD []
  | _ => []

/-- Held from outside, by what runs, or by the role of something that is anchored. -/
inductive Anchored (s : Store) : Handle → Prop
  | root {h : Handle} : h ∈ s.roots ++ s.pinned → Anchored s h
  | step {h h' : Handle} : Anchored s h → h' ∈ s.binds h → Anchored s h'

/-- No effect: bodies and views hold none. -/
def Passive (s : Store) (h : Handle) : Prop := ∀ n, h = .node n → s.rank n < .effect

/-- What a body that runs may use. -/
structure Offers (s : Store) (h : Handle) : Prop where
  anchored : s.Anchored h
  passive : s.Passive h

def running (s : Store) : List NodeId := s.frames.filterMap Frame.reader

def Computes (s : Store) (k : NodeId) : Prop := ∃ x, s.nodes[k]? = some x ∧ x.Computes

instance (s : Store) : DecidablePred s.Passive
  | .node n => decidable_of_iff (s.rank n < .effect) ⟨by rintro h _ ⟨⟩; exact h, fun h => h n rfl⟩
  | .component _ | .registry _ | .data _ | .host _ => isTrue nofun

instance (s : Store) (k : NodeId) : Decidable (s.Computes k) :=
  inferInstanceAs (Decidable (∃ x ∈ s.nodes[k]?, x.Computes))

def lastRun (s : Store) (k : NodeId) : List NodeId :=
  ((s.nodes[k]?).map (HotSwap.lastRun k s.trace)).getD []

theorem rank_of_node (hn : s.nodes[n]? = some x) : s.rank n = x.rank n := by simp [rank, hn]

theorem exists_of_rank_lt (hn : s.rank n < .effect) : ∃ x, s.nodes[n]? = some x := by
  cases hx : s.nodes[n]? with
  | none => simp [rank, hx] at hn
  | some x => exact ⟨x, rfl⟩

theorem not_passive_of_effect {e : Effect} (hn : s.nodes[n]? = some (.effect e)) :
    ¬s.Passive (.node n) := by
  intro hp
  have hlt := hp n rfl
  rw [rank_of_node hn] at hlt
  exact lt_irrefl _ hlt

theorem lastRun_of_node (hn : s.nodes[n]? = some x) :
    s.lastRun n = HotSwap.lastRun n s.trace x := by simp [lastRun, hn]

theorem binds_subset (s : Store) (h : Handle) : s.binds h ⊆ s.contents h := by
  cases h with
  | node n =>
    cases hx : s.nodes[n]? with
    | none => simp [binds, hx]
    | some x => simpa [binds, contents, hx] using x.handles_role_subset
  | component k => exact List.Subset.refl _
  | _ => exact List.nil_subset _

theorem Anchored.mem {live : List Handle} (hh : s.Anchored h)
    (hroots : ∀ h ∈ s.roots ++ s.pinned, h ∈ live)
    (hclosed : ∀ h ∈ live, ∀ h' ∈ s.binds h, h' ∈ live) : h ∈ live := by
  induction hh with
  | root hr => exact hroots _ hr
  | step _ hb ih => exact hclosed _ ih _ hb

namespace Lasts

theorem rank_eq (h : s.Lasts t) (hn : s.nodes[n]? = some x) : t.rank n = s.rank n := by
  obtain ⟨y, hy, e⟩ := h.node hn
  rw [rank_of_node hy, rank_of_node hn, Node.rank_congr e]

theorem rank_eq_of_lt (h : s.Lasts t) (hn : s.rank n < .effect) : t.rank n = s.rank n := by
  obtain ⟨x, hx⟩ := exists_of_rank_lt hn
  exact h.rank_eq hx

theorem below (h : s.Lasts t) {b : Rank} (hb : b ≤ .effect) (y : NodeId) (hy : s.rank y < b) :
    t.rank y < b := by
  rwa [h.rank_eq_of_lt (lt_of_lt_of_le hy hb)]

theorem passive (h : s.Lasts t) (hp : s.Passive h') : t.Passive h' :=
  fun n e => h.below (le_refl _) n (hp n e)

theorem cell (h : s.Lasts t) (hn : ∃ k, s.nodes[n]? = some (.cell k)) :
    ∃ k, t.nodes[n]? = some (.cell k) := by
  obtain ⟨k, hk⟩ := hn
  obtain ⟨y, hy, e⟩ := h.node hk
  obtain ⟨j, rfl⟩ := Node.cell_of_gist e
  exact ⟨j, hy⟩

theorem lastRun (h : s.Lasts t) (ht : t.trace = s.trace) (hx : s.nodes[n]? = some x) :
    t.lastRun n = s.lastRun n := by
  obtain ⟨y, hy, e⟩ := h.node hx
  rw [lastRun_of_node hy, lastRun_of_node hx, Node.lastRun_congr e, ht]

end Lasts

/-- Only caches and counts change, and more may be there and be held. -/
structure Retains (s t : Store) : Prop where
  node : ∀ {n : NodeId} {x : Node}, s.nodes[n]? = some x →
    ∃ y, t.nodes[n]? = some y ∧ y.role = x.role
  component : ∀ {k : ComponentId} {c : Component}, s.components[k]? = some c →
    t.components[k]? = some c
  roots : s.roots ⊆ t.roots
  pinned : s.pinned ⊆ t.pinned

namespace Retains

theorem refl (s : Store) : s.Retains s :=
  ⟨fun hx => ⟨_, hx, rfl⟩, id, List.Subset.refl _, List.Subset.refl _⟩

theorem trans (h : s.Retains t) (h' : t.Retains u) : s.Retains u where
  node hx := by
    obtain ⟨y, hy, e⟩ := h.node hx
    obtain ⟨z, hz, e'⟩ := h'.node hy
    exact ⟨z, hz, e'.trans e⟩
  component hk := h'.component (h.component hk)
  roots := List.Subset.trans h.roots h'.roots
  pinned := List.Subset.trans h.pinned h'.pinned

theorem set {x y : Node} (hx : s.nodes[n]? = some x) (hy : y.role = x.role) :
    s.Retains { s with nodes := s.nodes.set n y } :=
  { refl s with
    node := by
      intro k z hz
      by_cases hk : n = k
      · subst hk
        obtain rfl : x = z := by simpa [hx] using hz
        exact ⟨y, List.getElem?_set_self (List.getElem?_eq_some_iff.1 hx).1, hy⟩
      · exact ⟨z, (List.getElem?_set_ne hk).trans hz, rfl⟩ }

theorem add (s : Store) (x : Node) (live : List Handle) :
    s.Retains { s with nodes := s.nodes ++ [x], live } :=
  { refl s with node := fun hz => ⟨_, getElem?_append_of_some hz, rfl⟩ }

theorem lasts (h : s.Retains t) : s.Lasts t where
  node hx := by
    obtain ⟨y, hy, e⟩ := h.node hx
    exact ⟨y, hy, Node.gist_congr e⟩

theorem binds (h : s.Retains t) : s.binds h' ⊆ t.binds h' := by
  cases h' with
  | node n =>
    cases hx : s.nodes[n]? with
    | none => simp [Store.binds, hx]
    | some x =>
      obtain ⟨y, hy, e⟩ := h.node hx
      simp [Store.binds, hx, hy, e]
  | component k =>
    cases hk : s.components[k]? with
    | none => simp [Store.binds, hk]
    | some c => simp [Store.binds, hk, h.component hk]
  | _ => exact List.nil_subset _

theorem anchored (h : s.Retains t) (ha : s.Anchored h') : t.Anchored h' := by
  induction ha with
  | root hr =>
    apply Anchored.root
    rw [List.mem_append] at hr ⊢
    exact hr.imp (h.roots ·) (h.pinned ·)
  | step _ hb ih => exact ih.step (h.binds hb)

theorem offers (h : s.Retains t) (ho : s.Offers h') : t.Offers h' :=
  ⟨h.anchored ho.anchored, h.lasts.passive ho.passive⟩

theorem computes (h : s.Retains t) {k : NodeId} (hk : s.Computes k) : t.Computes k := by
  obtain ⟨x, hx, hc⟩ := hk
  obtain ⟨y, hy, e⟩ := h.node hx
  exact ⟨y, hy, (Node.computes_congr e).2 hc⟩

end Retains

end Store

open Store

/-- A memo over values reads what is older, and a template what is no view. -/
def Recipe.Tame (s : Store) (n : NodeId) : Recipe → Prop
  | .value _ body => body.Tame (fun y => s.rank y < .source n) False
  | .template _ body _ => body.Tame fun y => s.rank y < .view
  | .mount cell _ _ => ∃ k, s.nodes[cell]? = some (.cell k)

def Node.Tame (s : Store) (n : NodeId) : Node → Prop
  | .memo m => m.recipe.Tame s n
  | .effect e => e.body.Tame (fun y => s.rank y < .effect) True
  | _ => True

def Component.Tame (s : Store) : Component → Prop
  | .function f => f.body.Tame fun y => s.rank y < .view
  | .proxy p => ∃ k, s.nodes[p.cell]? = some (.cell k)

section Lasts

variable {s t : Store} {n : NodeId}

theorem Recipe.Tame.lasts (h : s.Lasts t) {r : Recipe} (hr : r.Tame s n) : r.Tame t n := by
  cases r with
  | value _ body =>
    exact Expr.Tame.mono (h.below (le_of_lt ((Rank.source_lt_view n).trans Rank.view_lt_effect))) hr
  | template _ body _ => exact Template.Tame.mono (h.below (le_of_lt Rank.view_lt_effect)) hr
  | mount cell _ _ => exact h.cell hr

theorem Node.Tame.lasts (h : s.Lasts t) {x : Node} (hx : x.Tame s n) : x.Tame t n := by
  cases x with
  | memo m => exact Recipe.Tame.lasts h hx
  | effect e => exact Expr.Tame.mono (h.below (le_refl _)) hx
  | _ => trivial

theorem Component.Tame.lasts (h : s.Lasts t) {c : Component} (hc : c.Tame s) : c.Tame t := by
  cases c with
  | function f => exact Template.Tame.mono (h.below (le_of_lt Rank.view_lt_effect)) hc
  | proxy p => exact h.cell hc

theorem Node.Tame.gist {x y : Node} (hx : x.Tame s n) (h : y.gist = x.gist) : y.Tame s n := by
  cases x with
  | memo m =>
    cases y with
    | memo m' =>
      injection h with h
      injection h with h
      rw [Node.Tame, h]
      exact hx
    | _ => trivial
  | effect e =>
    obtain ⟨e', rfl, _, hb⟩ := Node.effect_of_gist h.symm
    rw [Node.Tame, hb]
    exact hx
  | _ => cases y <;> trivial

end Lasts

end HotSwap
