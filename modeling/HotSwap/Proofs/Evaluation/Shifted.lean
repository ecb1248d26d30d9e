import Mathlib.Data.Option.Defs
import HotSwap.Proofs.Evaluation.Shift
/-!
# Evaluations over one more node

Two stores that are `Shifted` give the same answers, up to the numbers of new nodes: to every
expression, template, read, render and resolution that writes nothing. `H` is what may be reached
from outside; it was all there before the additional node was.
-/

namespace HotSwap

open Machine

/-- In `H`, or created after the additional node. -/
def Known (N : Nat) (H : Handle → Prop) : Handle → Prop
  | .node n => N ≤ n ∨ H (.node n)
  | h => H h

/-- Whatever is known refers only to what is known, and writes nothing. -/
structure Store.Closed (N : Nat) (H : Handle → Prop) (s : Store) : Prop where
  function : ∀ k f, H (.component k) → s.components[k]? = some (.function f) → f.body.Fits H
  proxy : ∀ k p, H (.component k) → s.components[k]? = some (.proxy p) → H (.node p.cell)
  cell : ∀ n k, Known N H (.node n) → s.nodes[n]? = some (.cell (some k)) → H (.component k)
  recipe : ∀ n m, Known N H (.node n) → s.nodes[n]? = some (.memo m) → m.recipe.Fits H
  value : ∀ n m x, Known N H (.node n) → s.nodes[n]? = some (.memo m) → m.value = some x →
    ∀ h ∈ x.handles, Known N H h

/-- `s'` has one more node, at `N`. `P` is what is provided, `F` and `F'` are the readers that run. -/
structure Shifted (N : Nat) (H : Handle → Prop) (P : Scope) (F F' : List (Option NodeId))
    (s s' : Store) : Prop where
  closed : s.Closed N H
  bound : N ≤ s.nodes.length
  length : s'.nodes.length = s.nodes.length + 1
  nodes : ∀ n : Nat, Known N H (.node n) → s'.nodes[lift N n]? = (s.nodes[n]?).map (Node.lift N)
  components : s'.components = s.components
  contexts : s'.contexts = s.contexts
  providers : s'.providers = s.providers
  provided : s.provided = P
  provided' : s'.provided = P
  readers : s.frames.map Frame.reader = F
  readers' : s'.frames.map Frame.reader = F'

def tracked (F : List (Option NodeId)) : Bool := F.head?.join.isSome

/-- There are answers on both sides, related by `V`, or there are none. -/
abbrev Agree (N : Nat) (H : Handle → Prop) (P : Scope) (F F' : List (Option NodeId))
    (V : α → β → Prop) : Option (α × Store) → Option (β × Store) → Prop :=
  Option.Rel fun p q => V p.1 q.1 ∧ Shifted N H P F F' p.2 q.2

def Alike (N : Nat) (H : Handle → Prop) (V : α → α → Prop) (m m' : Machine α) : Prop :=
  ∀ ⦃P F F' s s'⦄, tracked F = tracked F' → Shifted N H P F F' s s' →
    Agree N H P F F' V (m s) (m' s')

/-- The same view, up to the numbers of new nodes. -/
def View.Alike (N : Nat) (H : Handle → Prop) (v v' : View) : Prop :=
  v' = v.lift N ∧ ∀ h ∈ v.handles, Known N H h

def Content.Alike (N : Nat) (H : Handle → Prop) (x x' : Content) : Prop :=
  x' = x.lift N ∧ ∀ h ∈ x.handles, Known N H h

/-- Calls that do not notice the additional node. -/
structure Calls.Alike (N : Nat) (H : Handle → Prop) (c : Calls) : Prop where
  read : ∀ n, Known N H (.node n) →
    HotSwap.Alike N H (Content.Alike N H) (c.read n) (c.read (lift N n))
  render : ∀ k props, H (.component k) →
    HotSwap.Alike N H (View.Alike N H) (c.render k props) (c.render k props)
  resolve : ∀ v : View, (∀ h ∈ v.handles, Known N H h) →
    HotSwap.Alike N H (fun w w' => w'.flatText = w.flatText) (c.resolve v) (c.resolve (v.lift N))

section

variable {N : Nat} {H : Handle → Prop} {P : Scope} {F F' : List (Option NodeId)}
  {s s' t t' : Store}

theorem Known.of_mem {h : Handle} (hh : H h) : Known N H h := by
  cases h with
  | node n => exact .inr hh
  | _ => exact hh

/-- Changes that an evaluation without writes does not see. -/
structure Store.Alike (s t : Store) : Prop where
  nodes : t.nodes = s.nodes
  components : t.components = s.components
  contexts : t.contexts = s.contexts
  providers : t.providers = s.providers
  provided : t.provided = s.provided
  readers : t.frames.map Frame.reader = s.frames.map Frame.reader

theorem Store.Closed.congr (h : s.Closed N H) (hn : t.nodes = s.nodes)
    (hc : t.components = s.components) : t.Closed N H where
  function := by rw [hc]; exact h.function
  proxy := by rw [hc]; exact h.proxy
  cell := by rw [hn]; exact h.cell
  recipe := by rw [hn]; exact h.recipe
  value := by rw [hn]; exact h.value

theorem Shifted.alike (h : Shifted N H P F F' s s') (hs : s.Alike t) (hs' : s'.Alike t') :
    Shifted N H P F F' t t' where
  closed := h.closed.congr hs.nodes hs.components
  bound := by rw [hs.nodes]; exact h.bound
  length := by rw [hs.nodes, hs'.nodes]; exact h.length
  nodes := by rw [hs.nodes, hs'.nodes]; exact h.nodes
  components := by rw [hs.components, hs'.components, h.components]
  contexts := by rw [hs.contexts, hs'.contexts, h.contexts]
  providers := by rw [hs.providers, hs'.providers, h.providers]
  provided := by rw [hs.provided, h.provided]
  provided' := by rw [hs'.provided, h.provided']
  readers := by rw [hs.readers, h.readers]
  readers' := by rw [hs'.readers, h.readers']

variable {V : α → α → Prop} {W : β → β → Prop} {m m' : Machine α} {f f' : α → Machine β}

theorem Agree.bind {V : α → β → Prop} {W : γ → δ → Prop} {m : Machine α} {m' : Machine β}
    {f : α → Machine γ} {g : β → Machine δ} (hm : Agree N H P F F' V (m s) (m' s'))
    (hf : ∀ a b t t', V a b → Shifted N H P F F' t t' → Agree N H P F F' W (f a t) (g b t')) :
    Agree N H P F F' W ((m >>= f) s) ((m' >>= g) s') := by
  rw [bind_apply, bind_apply]
  generalize m s = x at hm
  generalize m' s' = x' at hm
  cases hm with
  | none => exact .none
  | some hp => exact hf _ _ _ _ hp.1 hp.2

theorem Alike.bind (hm : Alike N H V m m') (hf : ∀ a a', V a a' → Alike N H W (f a) (f' a')) :
    Alike N H W (m >>= f) (m' >>= f') :=
  fun _ _ _ _ _ ht h => (hm ht h).bind fun _ _ _ _ hv hs => hf _ _ hv ht hs

theorem Alike.pure {a a' : α} (h : V a a') : Alike N H V (pure a) (pure a') :=
  fun _ _ _ _ _ _ hs => .some ⟨h, hs⟩

theorem Alike.mono {V' : α → α → Prop} (hm : Alike N H V m m') (hv : ∀ a a', V a a' → V' a a') :
    Alike N H V' m m' := by
  intro P F F' s s' ht h
  have hrel := hm ht h
  generalize m s = x at hrel
  generalize m' s' = x' at hrel
  cases hrel with
  | none => exact .none
  | some hp => exact .some ⟨hv _ _ hp.1, hp.2⟩

theorem Alike.of_eq (hm : ∀ s : Store, ∃ a t, m s = some (a, t) ∧ s.Alike t)
    (hm' : ∀ s : Store, ∃ a t, m' s = some (a, t) ∧ s.Alike t) :
    Alike N H (fun _ _ => True) m m' := by
  intro P F F' s s' ht h
  obtain ⟨a, t, ht, hst⟩ := hm s
  obtain ⟨a', t', ht', hst'⟩ := hm' s'
  rw [ht, ht']
  exact .some ⟨trivial, h.alike hst hst'⟩

theorem Alike.modify {f f' : Store → Store} (hf : ∀ s : Store, s.Alike (f s))
    (hf' : ∀ s : Store, s.Alike (f' s)) : Alike N H (fun _ _ => True) (modify f) (modify f') :=
  .of_eq (fun s => ⟨_, _, rfl, hf s⟩) fun s => ⟨_, _, rfl, hf' s⟩

theorem Store.Alike.refl (s : Store) : s.Alike s := ⟨rfl, rfl, rfl, rfl, rfl, rfl⟩

theorem Alike.look {g g' : Store → α} (hm : ∀ s, m s = some (g s, s))
    (hm' : ∀ s, m' s = some (g' s, s))
    (hv : ∀ ⦃P F F' s s'⦄, tracked F = tracked F' → Shifted N H P F F' s s' → V (g s) (g' s')) :
    Alike N H V m m' := by
  intro P F F' s s' ht h
  rw [hm, hm']
  exact .some ⟨hv ht h, h⟩

theorem Alike.emit (e e' : Event) : Alike N H (fun _ _ => True) (emit e) (emit e') :=
  .modify (fun s => { Store.Alike.refl s with }) fun s => { Store.Alike.refl s with }

theorem Alike.collect : Alike N H (fun _ _ => True) collect collect :=
  .modify (fun s => { Store.Alike.refl s with }) fun s => { Store.Alike.refl s with }

theorem Alike.unsubscribe (n n' : NodeId) :
    Alike N H (fun _ _ => True) (unsubscribe n) (unsubscribe n') :=
  .modify (fun s => { Store.Alike.refl s with }) fun s => { Store.Alike.refl s with }

theorem Alike.release (h : Handle) :
    Alike N H (fun _ _ => True) (Machine.release h) (Machine.release h) :=
  .bind (.modify (fun s => { Store.Alike.refl s with }) fun s => { Store.Alike.refl s with })
    fun _ _ _ => .collect

theorem Store.Alike.track (n : NodeId) (s : Store) :
    ∃ a t, Machine.track n s = some (a, t) ∧ s.Alike t := by
  refine ⟨_, _, track_apply n s, ?_⟩
  split
  · rename_i h
    exact { Store.Alike.refl s with readers := by rw [h]; simp only [Frame.reading]; split <;> rfl }
  · exact .refl s

theorem Alike.track (n n' : NodeId) : Alike N H (fun _ _ => True) (track n) (track n') :=
  .of_eq (Store.Alike.track n) (Store.Alike.track n')

theorem Alike.reader : Alike N H (fun r r' => r.isSome = r'.isSome) reader reader := by
  refine .look reader_apply reader_apply fun P F F' s s' ht h => ?_
  have hr (s : Store) : s.frames.head?.bind Frame.reader = (s.frames.map Frame.reader).head?.join := by
    cases s.frames <;> rfl
  rw [hr, hr, h.readers, h.readers']
  exact ht

theorem Alike.inFrame {r r' : Option NodeId} (hr : r.isSome = r'.isSome) (hm : Alike N H V m m') :
    Alike N H (fun p p' => V p.1 p'.1) (inFrame r m) (inFrame r' m') := by
  intro P F F' s s' ht h
  have hpush : Shifted N H P (r :: F) (r' :: F') { s with frames := { reader := r } :: s.frames }
      { s' with frames := { reader := r' } :: s'.frames } :=
    { h with
      closed := h.closed.congr rfl rfl
      readers := by simp [h.readers]
      readers' := by simp [h.readers'] }
  have hrel := hm (by simpa [tracked] using hr) hpush
  simp only [Machine.inFrame, push, pop, sources, bind_apply, modify_apply, get_apply,
    Option.bind_some]
  generalize m { s with frames := { reader := r } :: s.frames } = x at hrel
  generalize m' { s' with frames := { reader := r' } :: s'.frames } = x' at hrel
  cases hrel with
  | none => exact .none
  | some hp =>
    obtain ⟨hv, hu⟩ := hp
    refine .some ⟨hv, { hu with
      closed := hu.closed.congr rfl rfl
      readers := ?_
      readers' := ?_ }⟩
    · simpa using congrArg List.tail hu.readers
    · simpa using congrArg List.tail hu.readers'

theorem Alike.untracked (hm : Alike N H V m m') :
    Alike N H V (untracked m) (untracked m') :=
  .bind (.inFrame rfl hm) fun _ _ hp => .pure hp

theorem Alike.providing (t : Token) (v : Json) (hm : Alike N H V m m') :
    Alike N H V (providing t v m) (providing t v m') := by
  intro P F F' s s' ht h
  have hrel := @hm _ _ _ { s with provided := (t, v) :: s.provided }
    { s' with provided := (t, v) :: s'.provided } ht
    { h with
      closed := h.closed.congr rfl rfl
      provided := congrArg (List.cons (t, v)) h.provided
      provided' := congrArg (List.cons (t, v)) h.provided' }
  simp only [Machine.providing, bind_apply, modify_apply, Option.bind_some]
  generalize m { s with provided := (t, v) :: s.provided } = x at hrel
  generalize m' { s' with provided := (t, v) :: s'.provided } = x' at hrel
  cases hrel with
  | none => exact .none
  | some hp =>
    obtain ⟨hv, ht⟩ := hp
    exact .some ⟨hv, { ht with
      closed := ht.closed.congr rfl rfl
      provided := congrArg List.tail ht.provided
      provided' := congrArg List.tail ht.provided' }⟩

theorem Alike.inScope (scope : Scope) (hm : Alike N H V m m') :
    Alike N H V (inScope scope m) (inScope scope m') := by
  intro P F F' s s' ht h
  have hrel := @hm _ _ _ { s with provided := scope } { s' with provided := scope } ht
    { h with closed := h.closed.congr rfl rfl, provided := rfl, provided' := rfl }
  simp only [Machine.inScope, bind_apply, modify_apply, get_apply, Option.bind_some]
  generalize m { s with provided := scope } = x at hrel
  generalize m' { s' with provided := scope } = x' at hrel
  cases hrel with
  | none => exact .none
  | some hp =>
    obtain ⟨hv, ht⟩ := hp
    exact .some ⟨hv, { ht with
      closed := ht.closed.congr rfl rfl
      provided := h.provided
      provided' := h.provided' }⟩

theorem Alike.keeping (hs hs' : List Handle) (hm : Alike N H V m m') :
    Alike N H V (keeping hs m) (keeping hs' m') := by
  intro P F F' s s' ht h
  have hpin : s.Alike { s with pinned := hs ++ s.pinned } := { Store.Alike.refl s with }
  have hpin' : s'.Alike { s' with pinned := hs' ++ s'.pinned } := { Store.Alike.refl s' with }
  have hrel := hm ht (h.alike hpin hpin')
  simp only [Machine.keeping, bind_apply, modify_apply, get_apply, Option.bind_some]
  generalize m { s with pinned := hs ++ s.pinned } = x at hrel
  generalize m' { s' with pinned := hs' ++ s'.pinned } = x' at hrel
  cases hrel with
  | none => exact .none
  | some hp =>
    exact .some ⟨hp.1, hp.2.alike { Store.Alike.refl _ with } { Store.Alike.refl _ with }⟩

theorem Alike.borrowing (v v' : View) (hm : Alike N H V m m') :
    Alike N H V (borrowing v m) (borrowing v' m') :=
  .bind (.keeping _ _ hm) fun _ _ ha => .bind .collect fun _ _ _ => .pure ha

/-- A node that a closed store may have where it is known. -/
def Node.Fits (N : Nat) (H : Handle → Prop) : Node → Prop
  | .memo m => m.recipe.Fits H ∧ ∀ x, m.value = some x → ∀ h ∈ x.handles, Known N H h
  | .cell (some k) => H (.component k)
  | _ => True

theorem Store.Closed.fits (h : s.Closed N H) {n : NodeId} {x : Node} (hn : Known N H (.node n))
    (hx : s.nodes[n]? = some x) : x.Fits N H := by
  cases x with
  | memo m => exact ⟨h.recipe n m hn hx, fun v => h.value n m v hn hx⟩
  | cell k =>
    cases k with
    | none => trivial
    | some k => exact h.cell n k hn hx
  | _ => trivial

theorem Store.Closed.set_node (h : s.Closed N H) (n : NodeId) {x : Node} (hx : x.Fits N H) :
    Store.Closed N H { s with nodes := s.nodes.set n x } := by
  have hset {l : NodeId} {y : Node} (hl : (s.nodes.set n x)[l]? = some y) :
      y = x ∨ s.nodes[l]? = some y := by
    by_cases e : n = l
    · subst e
      rw [List.getElem?_set] at hl
      split at hl
      · split at hl
        · exact .inl (Option.some.inj hl).symm
        · cases hl
      · exact .inr hl
    · rw [List.getElem?_set_ne e] at hl
      exact .inr hl
  refine ⟨h.function, h.proxy, ?_, ?_, ?_⟩
  · intro l k hl hk
    rcases hset hk with rfl | hk
    · exact hx
    · exact h.cell l k hl hk
  · intro l m hl hm
    rcases hset hm with rfl | hm
    · exact hx.1
    · exact h.recipe l m hl hm
  · intro l m v hl hm
    rcases hset hm with rfl | hm
    · exact hx.2 v
    · exact h.value l m v hl hm

theorem Store.Closed.add_node (h : s.Closed N H) {x : Node} (hx : x.Fits N H)
    (live : List Handle) : Store.Closed N H { s with nodes := s.nodes ++ [x], live } := by
  have hadd {l : NodeId} {y : Node} (hy : (s.nodes ++ [x])[l]? = some y) :
      y = x ∨ s.nodes[l]? = some y := by
    rw [List.getElem?_append] at hy
    split at hy
    · exact .inr hy
    · rw [List.getElem?_singleton] at hy
      split at hy
      · exact .inl (Option.some.inj hy).symm
      · cases hy
  refine ⟨h.function, h.proxy, ?_, ?_, ?_⟩
  · intro l k hl hk
    rcases hadd hk with rfl | hk
    · exact hx
    · exact h.cell l k hl hk
  · intro l m hl hm
    rcases hadd hm with rfl | hm
    · exact hx.1
    · exact h.recipe l m hl hm
  · intro l m v hl hm
    rcases hadd hm with rfl | hm
    · exact hx.2 v
    · exact h.value l m v hl hm

theorem Shifted.set_node {n : Nat} {x : Node} (h : Shifted N H P F F' s s')
    (hx : x.Fits N H) :
    Shifted N H P F F' { s with nodes := s.nodes.set n x }
      { s' with nodes := s'.nodes.set (lift N n) (x.lift N) } := by
  refine { h with
    closed := h.closed.set_node n hx
    bound := by simpa using h.bound
    length := by simpa using h.length
    nodes := ?_ }
  intro l hl
  by_cases e : n = l
  · subst e
    have hlen := h.length
    have hb := h.bound
    by_cases hlt : n < s.nodes.length
    · have : lift N n < s'.nodes.length := by unfold lift; split <;> omega
      rw [List.getElem?_set_self this, List.getElem?_set_self hlt]
      rfl
    · have : ¬ lift N n < s'.nodes.length := by rw [lift_of_le (by omega)]; omega
      rw [List.getElem?_eq_none (by simpa using this), List.getElem?_eq_none (by simpa using hlt)]
      rfl
  · rw [List.getElem?_set_ne (by rwa [Ne, lift_inj]), List.getElem?_set_ne e, h.nodes l hl]

theorem Shifted.add_node {x : Node} (h : Shifted N H P F F' s s') (hx : x.Fits N H)
    (hl : x.lift N = x) (live live' : List Handle) :
    Shifted N H P F F' { s with nodes := s.nodes ++ [x], live }
      { s' with nodes := s'.nodes ++ [x], live := live' } := by
  refine { h with
    closed := h.closed.add_node hx live
    bound := by simpa using Nat.le_succ_of_le h.bound
    length := by simpa using h.length
    nodes := ?_ }
  intro l hkn
  have hb := h.bound
  have hlen := h.length
  have hn := h.nodes l hkn
  rcases Nat.lt_trichotomy l s.nodes.length with hlt | rfl | hgt
  · have : lift N l < s'.nodes.length := by unfold lift; split <;> omega
    rw [List.getElem?_append_left this, List.getElem?_append_left hlt, hn]
  · rw [lift_of_le hb, ← hlen]
    simp [hl]
  · have : s'.nodes.length < lift N l := by rw [lift_of_le (by omega)]; omega
    rw [List.getElem?_eq_none (by simp; omega), List.getElem?_eq_none (by simp; omega)]
    rfl

theorem Alike.node {n : NodeId} (hn : Known N H (.node n)) :
    Alike N H (fun y y' => y' = y.map (Node.lift N) ∧ ∀ x, y = some x → x.Fits N H)
      (node? n) (node? (lift N n)) :=
  .look (node?_apply n) (node?_apply _) fun _ _ _ _ _ _ h =>
    ⟨h.nodes n hn, fun _ hx => h.closed.fits hn hx⟩

theorem Alike.setNode {n : NodeId} {x : Node} (hx : x.Fits N H) :
    Alike N H (fun _ _ => True) (setNode n x) (setNode (lift N n) (x.lift N)) :=
  fun _ _ _ _ _ _ h => .some ⟨trivial, h.set_node hx⟩

theorem Alike.reactiveView {r : Recipe} (hr : r.Fits H) :
    Alike N H (View.Alike N H) (reactiveView r) (reactiveView r) := by
  intro P F F' s s' ht h
  refine .some ⟨⟨?_, ?_⟩, h.add_node (x := .memo { recipe := r }) ⟨hr, by simp⟩ rfl _ _⟩
  · simp [View.lift, lift_of_le h.bound, h.length]
  · intro x hx
    obtain rfl : x = .node s.nodes.length := by simpa [View.handles, View.nodes] using hx
    exact .inl h.bound

theorem Alike.memo {n : NodeId} (hn : Known N H (.node n)) :
    Alike N H (fun m m' => (m' = m.map fun m => { m with value := m.value.map (Content.lift N) }) ∧
      ∀ x, m = some x → Node.Fits N H (.memo x)) (memo? n) (memo? (lift N n)) := by
  refine .bind (.node hn) ?_
  rintro (_ | x) y' ⟨rfl, hx⟩
  · exact .pure ⟨rfl, by simp⟩
  · cases x with
    | memo m => exact .pure ⟨rfl, by rintro _ ⟨⟩; exact hx _ rfl⟩
    | _ => exact .pure ⟨rfl, by simp⟩

theorem Alike.cellContent {n : NodeId} (hn : Known N H (.node n)) :
    Alike N H (fun k k' => k' = k ∧ ∀ j, k = some j → H (.component j))
      (cellContent n) (cellContent (lift N n)) := by
  refine .bind (.node hn) ?_
  rintro (_ | x) y' ⟨rfl, hx⟩
  · exact .pure ⟨rfl, by simp⟩
  · cases x with
    | cell k => exact .pure ⟨rfl, by rintro j rfl; exact hx _ rfl⟩
    | _ => exact .pure ⟨rfl, by simp⟩

theorem Alike.peek {n : NodeId} (hn : Known N H (.node n)) :
    Alike N H Eq (Machine.peek n) (Machine.peek (lift N n)) := by
  refine .bind (.node hn) ?_
  rintro (_ | x) y' ⟨rfl, -⟩
  · exact .pure rfl
  · cases x <;> exact .pure rfl

theorem Alike.disposeEffect {n : NodeId} (hn : Known N H (.node n)) :
    Alike N H (fun _ _ => True) (disposeEffect n) (disposeEffect (lift N n)) := by
  refine .bind (V := fun e e' => e' = e) (.bind (.node hn) ?_) ?_
  · rintro (_ | x) y' ⟨rfl, -⟩
    · exact .pure rfl
    · cases x <;> exact .pure rfl
  · rintro (_ | e) _ rfl
    · exact .pure trivial
    · exact .bind (.setNode (x := .effect { e with disposed := true }) trivial)
        fun _ _ _ => .unsubscribe _ _

end

variable {N : Nat} {H : Handle → Prop} {c : Calls}

theorem Alike.textOf (hc : c.Alike N H) {v v' : View} (hv : v.Alike N H v') :
    Alike N H Eq (textOf c v) (textOf c v') := by
  obtain ⟨rfl, hk⟩ := hv
  exact .bind (.borrowing _ _ (hc.resolve v hk)) fun _ _ hw => .pure hw.symm

theorem View.Alike.of_mem (hN : ∀ n, H (.node n) → n < N) {v : View} (hv : ∀ h ∈ v.handles, H h) :
    v.Alike N H v := by
  refine ⟨(View.lift_of_lt fun n hn => hN n (hv _ (List.mem_map_of_mem hn))).symm, fun h hh => ?_⟩
  exact .of_mem (hv h hh)

mutual

theorem Expr.eval_alike (hN : ∀ n, H (.node n) → n < N) (hc : c.Alike N H) (env : Env) :
    ∀ e : LinkedExpr, e.Fits H → Alike N H Eq (e.eval c env) (e.eval c env)
  | .literal _, _ | .props, _ | .current, _ | .member _, _ => .pure rfl
  | .get n, h => by
    have hn : H (.node n) := h.handles _ (List.mem_singleton_self _)
    have hread := hc.read n (.of_mem hn)
    rw [lift_of_lt (hN n hn)] at hread
    refine .bind hread fun x x' hx => .pure ?_
    rw [hx.1]
    cases x <;> rfl
  | .peek n, h => by
    have hn : H (.node n) := h.handles _ (List.mem_singleton_self _)
    have hpeek := Alike.peek (N := N) (.of_mem hn)
    rwa [lift_of_lt (hN n hn)] at hpeek
  | .untrack e, h => .untracked (Expr.eval_alike hN hc env e ⟨h.1, h.2⟩)
  | .add es, h | .mul es, h | .concat es, h | .list es, h | .seq es, h => by
    refine .bind (Expr.evalAll_alike hN hc env es ⟨h.1, h.2⟩) fun vs vs' hv => .pure ?_
    rw [hv]
  | .less a b, h => by
    obtain ⟨ha, hb⟩ := h.less
    refine .bind (Expr.eval_alike hN hc env a ha) fun x x' hx => ?_
    refine .bind (Expr.eval_alike hN hc env b hb) fun y y' hy => .pure ?_
    rw [hx, hy]
  | .cond t a b, h => by
    obtain ⟨ht, ha, hb⟩ := h.cond
    refine .bind (Expr.eval_alike hN hc env t ht) fun x x' hx => ?_
    subst hx
    split
    · exact Expr.eval_alike hN hc env a ha
    · exact Expr.eval_alike hN hc env b hb
  | .set n e, h => absurd h.writes (by simp [Expr.writes])
  | .use ctx, _ => .look (useContext_apply ctx) (useContext_apply ctx) fun _ _ _ _ _ _ hs => by
    rw [hs.provided, hs.provided', hs.contexts]
  | .provide ctx v e, h => by
    obtain ⟨hv, he⟩ := h.provide
    refine .bind (Expr.eval_alike hN hc env v hv) fun x x' hx => ?_
    refine .bind (V := Eq) ?_ fun t t' ht => ?_
    · exact .look (contextToken_apply ctx) (contextToken_apply ctx) fun _ _ _ _ _ _ hs => by
        rw [hs.providers, hs.contexts]
    · rw [hx, ht]
      exact .providing _ _ (Expr.eval_alike hN hc env e he)
  | .text v, h => .bind (.textOf hc (View.Alike.of_mem hN h.handles)) fun t t' ht => .pure (by rw [ht])
  | .render k e, h => by
    obtain ⟨hk, he⟩ := h.render
    refine .bind (Expr.eval_alike hN hc env e he) fun props props' hp => ?_
    subst hp
    refine .bind (hc.render k props hk) fun v v' hv => ?_
    exact .bind (.textOf hc hv) fun t t' ht => .pure (by rw [ht])
  | .log e, h => by
    refine .bind (Expr.eval_alike hN hc env e ⟨h.1, h.2⟩) fun v v' hv => ?_
    exact .bind (.emit _ _) fun _ _ _ => .pure hv
  | .tracking, _ => .bind (.bind .reader fun _ _ hr => .pure hr) fun t t' ht => .pure (by rw [ht])
  | .dispose n, h => by
    have hn : H (.node n) := h.handles _ (List.mem_singleton_self _)
    have hd := Alike.disposeEffect (N := N) (.of_mem hn)
    rw [lift_of_lt (hN n hn)] at hd
    exact .bind hd fun _ _ _ => .pure rfl
  | .release n, _ => .bind (.release _) fun _ _ _ => .pure rfl

theorem Expr.evalAll_alike (hN : ∀ n, H (.node n) → n < N) (hc : c.Alike N H) (env : Env) :
    ∀ es : List LinkedExpr, Expr.FitAll H es →
      Alike N H Eq (Expr.evalAll c env es) (Expr.evalAll c env es)
  | [], _ => .pure rfl
  | e :: rest, h => by
    obtain ⟨he, hr⟩ := h.cons
    refine .bind (Expr.eval_alike hN hc env e he) fun v v' hv => ?_
    refine .bind (Expr.evalAll_alike hN hc env rest hr) fun vs vs' hvs => .pure ?_
    rw [hv, hvs]

end

def View.AlikeAll (N : Nat) (H : Handle → Prop) (vs vs' : List View) : Prop :=
  vs' = View.liftAll N vs ∧ ∀ n ∈ View.nodesAll vs, Known N H (.node n)

theorem View.Alike.node {v v' : View} (h : v.Alike N H v') : ∀ n ∈ v.nodes, Known N H (.node n) :=
  fun _ hn => h.2 _ (List.mem_map_of_mem hn)

theorem View.Alike.of_nodes {v : View} (h : ∀ n ∈ v.nodes, Known N H (.node n)) :
    v.Alike N H (v.lift N) := by
  refine ⟨rfl, fun x hx => ?_⟩
  obtain ⟨n, hn, rfl⟩ := List.mem_map.1 hx
  exact h n hn

mutual

theorem Template.eval_alike (hN : ∀ n, H (.node n) → n < N) (hc : c.Alike N H) (env : Env) :
    ∀ t : LinkedTemplate, t.Fits H → Alike N H (View.Alike N H) (t.eval c env) (t.eval c env)
  | .empty, _ => .pure ⟨rfl, by simp [View.handles, View.nodes]⟩
  | .text e, h => by
    refine .bind (Expr.eval_alike hN hc env e ⟨h.1, h.2⟩) fun x x' hx => .pure ?_
    subst hx
    exact ⟨rfl, by simp [View.handles, View.nodes]⟩
  | .fragment children, h => by
    refine .bind (Template.evalAll_alike hN hc env children ⟨h.1, h.2⟩) fun vs vs' hv => .pure ?_
    obtain ⟨rfl, hk⟩ := hv
    exact View.Alike.of_nodes (v := .fragment vs) hk
  | .dynamic label body, h => .reactiveView ⟨h.1, h.2⟩
  | .child k e, h => by
    obtain ⟨hk, he⟩ := h.child
    refine .bind (Expr.eval_alike hN hc env e he) fun props props' hp => ?_
    subst hp
    exact hc.render k props hk
  | .provide ctx v body, h => by
    obtain ⟨hv, hb⟩ := h.provide
    refine .bind (Expr.eval_alike hN hc env v hv) fun x x' hx => ?_
    refine .bind (V := Eq) ?_ fun t t' ht => ?_
    · exact .look (contextToken_apply ctx) (contextToken_apply ctx) fun _ _ _ _ _ _ hs => by
        rw [hs.providers, hs.contexts]
    · rw [hx, ht]
      exact .providing _ _ (Template.eval_alike hN hc env body hb)
  | .cond t a b, h => by
    obtain ⟨ht, ha, hb⟩ := h.cond
    refine .bind (Expr.eval_alike hN hc env t ht) fun x x' hx => ?_
    subst hx
    split
    · exact Template.eval_alike hN hc env a ha
    · exact Template.eval_alike hN hc env b hb
  | .use v, h => .pure (View.Alike.of_mem hN h.handles)

theorem Template.evalAll_alike (hN : ∀ n, H (.node n) → n < N) (hc : c.Alike N H) (env : Env) :
    ∀ ts : List LinkedTemplate, Template.FitAll H ts →
      Alike N H (View.AlikeAll N H) (Template.evalAll c env ts) (Template.evalAll c env ts)
  | [], _ => .pure ⟨rfl, by simp [View.nodesAll]⟩
  | t :: rest, h => by
    obtain ⟨ht, hr⟩ := h.cons
    refine .bind (Template.eval_alike hN hc env t ht) fun v v' hv => ?_
    refine .bind (.keeping _ _ (Template.evalAll_alike hN hc env rest hr)) fun vs vs' hvs => .pure ?_
    refine ⟨by rw [hv.1, hvs.1, View.liftAll], fun n hn => ?_⟩
    rcases List.mem_append.1 hn with hn | hn
    · exact hv.node n hn
    · exact hvs.2 n hn

end

theorem Machine.renderComponent_alike (hN : ∀ n, H (.node n) → n < N) (hc : c.Alike N H) (k : ComponentId)
    (props : Json) (hk : H (.component k)) :
    Alike N H (View.Alike N H) (renderComponent c k props) (renderComponent c k props) := by
  refine .bind (V := fun x x' => x' = x ∧ (∀ f, x = some (.function f) → f.body.Fits H) ∧
    ∀ p, x = some (.proxy p) → H (.node p.cell)) ?_ ?_
  · exact .look (component?_apply k) (component?_apply k) fun _ _ _ _ _ _ h =>
      ⟨by rw [h.components], fun f => h.closed.function k f hk, fun p => h.closed.proxy k p hk⟩
  rintro (_ | x) _ ⟨rfl, hf, hp⟩
  · exact .pure ⟨rfl, by simp [View.handles, View.nodes]⟩
  cases x with
  | function f =>
    exact .bind (.emit _ _) fun _ _ _ => Template.eval_alike hN hc _ f.body (hf f rfl)
  | proxy p =>
    have hcell := hp p rfl
    have mount : Alike N H (View.Alike N H)
        (do reactiveView (.mount p.cell props (← get).provided))
        (do reactiveView (.mount p.cell props (← get).provided)) := by
      refine .bind (V := fun s s' => s'.provided = s.provided)
        (.look get_apply get_apply fun _ _ _ _ _ _ h => h.provided'.trans h.provided.symm) fun s s' hs => ?_
      rw [hs]
      exact .reactiveView ⟨rfl, by simpa [Recipe.handles] using hcell⟩
    have hcontent := Alike.cellContent (N := N) (.of_mem hcell)
    rw [lift_of_lt (hN _ hcell)] at hcontent
    refine .bind hcontent ?_
    rintro (_ | j) _ ⟨rfl, hj⟩
    · exact mount
    · refine .bind (V := Eq) (.look (isDev_apply j) (isDev_apply j) fun _ _ _ _ _ _ h => by
        rw [h.components]) ?_
      rintro dev _ rfl
      cases dev with
      | true => exact mount
      | false => exact hc.render j props (hj j rfl)

mutual

theorem Machine.resolveView_alike (hc : c.Alike N H) :
    ∀ v : View, (∀ n ∈ v.nodes, Known N H (.node n)) →
    Alike N H (fun w w' => w'.flatText = w.flatText) (resolveView c v) (resolveView c (v.lift N))
  | .empty, _ => .pure rfl
  | .text _, _ => .pure rfl
  | .fragment children, h => .bind (Machine.resolveViews_alike hc children h) fun _ _ hv => .pure hv
  | .dynamic n, h => by
    refine .bind (hc.read n (h n (List.mem_singleton_self n))) fun x x' hx => ?_
    obtain ⟨rfl, hk⟩ := hx
    cases x with
    | view v => exact .borrowing _ _ (hc.resolve v hk)
    | json _ => exact .borrowing _ _ (hc.resolve .empty (by simp [View.handles, View.nodes]))
    | component _ => exact .borrowing _ _ (hc.resolve .empty (by simp [View.handles, View.nodes]))

theorem Machine.resolveViews_alike (hc : c.Alike N H) :
    ∀ vs : List View, (∀ n ∈ View.nodesAll vs, Known N H (.node n)) →
      Alike N H (fun ws ws' => View.flatTextAll ws' = View.flatTextAll ws) (resolveViews c vs)
        (resolveViews c (View.liftAll N vs))
  | [], _ => .pure rfl
  | v :: rest, h => by
    refine .bind (Machine.resolveView_alike hc v fun n hn => h n (List.mem_append_left _ hn))
      fun w w' hw => ?_
    refine .bind (Machine.resolveViews_alike hc rest fun n hn => h n (List.mem_append_right _ hn))
      fun ws ws' hws => .pure ?_
    rw [View.flatTextAll, View.flatTextAll, hw, hws]

end

namespace Machine

theorem runRecipe_alike (hN : ∀ n, H (.node n) → n < N) (hc : c.Alike N H) (n n' : NodeId) :
    ∀ r : Recipe, r.Fits H → Alike N H (Content.Alike N H) (runRecipe c n r) (runRecipe c n' r)
  | .value _ body, h => by
    refine .bind (Expr.eval_alike hN hc {} body ⟨h.1, h.2⟩) fun v v' hv => ?_
    subst hv
    exact .bind (.emit _ _) fun _ _ _ => .pure ⟨rfl, by simp [Content.handles]⟩
  | .template _ body props, h => by
    refine .bind (.emit _ _) fun _ _ _ => ?_
    refine .bind (Template.eval_alike hN hc { props } body ⟨h.1, h.2⟩) fun v v' hv => .pure ?_
    exact ⟨by rw [hv.1]; rfl, hv.2⟩
  | .mount cell props scope, h => by
    have hcell : H (.node cell) := h.handles _ (List.mem_singleton_self _)
    have hread := hc.read cell (.of_mem hcell)
    rw [lift_of_lt (hN cell hcell)] at hread
    refine .bind hread ?_
    rintro x _ ⟨rfl, hx⟩
    have none : Content.Alike N H (.view .empty) (.view .empty) :=
      ⟨rfl, by simp [Content.handles, View.handles, View.nodes]⟩
    cases x with
    | component k =>
      cases k with
      | none => exact .pure none
      | some k =>
        have hk : H (.component k) := hx _ (List.mem_singleton_self _)
        refine .bind (.inScope scope (.untracked (hc.render k props hk))) fun v v' hv => .pure ?_
        exact ⟨by rw [hv.1]; rfl, hv.2⟩
    | _ => exact .pure none

theorem settleMemo_alike {n : NodeId} (hn : Known N H (.node n)) {x x' : Content}
    (hx : x.Alike N H x') :
    Alike N H (fun _ _ => True) (settleMemo n x) (settleMemo (lift N n) x') := by
  obtain ⟨rfl, hk⟩ := hx
  refine .bind (.memo hn) ?_
  rintro (_ | m) _ ⟨rfl, hm⟩
  · exact .pure trivial
  have hfits : Node.Fits N H (.memo { m with value := some x, freshness := .clean }) :=
    ⟨(hm m rfl).1, by rintro _ ⟨⟩; exact hk⟩
  refine .bind (.setNode hfits) fun _ _ _ => ?_
  obtain ⟨recipe, value, freshness⟩ := m
  rcases value with _ | (_ | _ | _)
  case some.view => exact .collect
  all_goals exact .pure trivial

theorem readNode_alike (hN : ∀ n, H (.node n) → n < N) (hc : c.Alike N H) (n : NodeId)
    (hn : Known N H (.node n)) :
    Alike N H (Content.Alike N H) (readNode c n) (readNode c (lift N n)) := by
  have hrecompute (m : Memo) (hm : m.recipe.Fits H) : Alike N H (Content.Alike N H)
      (recompute c n m) (recompute c (lift N n) { m with value := m.value.map (Content.lift N) }) :=
    .bind (.unsubscribe _ _) fun _ _ _ => .bind (.inFrame rfl (runRecipe_alike hN hc _ _ _ hm))
      fun _ _ hp => .bind (settleMemo_alike hn hp) fun _ _ _ => .pure hp
  refine .bind (.track _ _) fun _ _ _ => .bind ?_ fun x x' hx =>
    .bind .reader fun _ _ _ => .bind (.emit _ _) fun _ _ _ => .pure hx
  refine .bind (.node hn) ?_
  rintro (_ | y) _ ⟨rfl, hy⟩
  · exact .pure ⟨rfl, by simp [Content.handles]⟩
  cases y with
  | signal v => exact .pure ⟨rfl, by simp [Content.handles]⟩
  | cell k =>
    refine .pure ⟨rfl, ?_⟩
    cases k with
    | none => simp [Content.handles]
    | some k => simpa [Content.handles, Known, Node.Fits] using hy _ rfl
  | memo m =>
    obtain ⟨hr, hv⟩ := hy _ rfl
    obtain ⟨recipe, value, freshness⟩ := m
    cases value with
    | none => cases freshness <;> exact hrecompute _ hr
    | some v =>
      cases freshness with
      | clean => exact .pure ⟨rfl, hv v rfl⟩
      | _ => exact hrecompute _ hr
  | _ => exact .pure ⟨rfl, by simp [Content.handles]⟩

end Machine

/-- No call notices the additional node. -/
theorem calls_alike (hN : ∀ n, H (.node n) → n < N) : ∀ d, (calls d).Alike N H
  | 0 => by
    have none {α : Type} (V : α → α → Prop) : Alike N H V (exhausted : Machine α) exhausted :=
      fun _ _ _ _ _ _ _ => .none
    exact ⟨fun _ _ => none _, fun _ _ _ => none _, fun _ _ => none _⟩
  | d + 1 => by
    have ih := calls_alike hN d
    rw [calls_succ]
    exact ⟨readNode_alike hN ih, renderComponent_alike hN ih, fun v hv =>
      resolveView_alike ih v fun n hn => hv _ (List.mem_map_of_mem hn)⟩

end HotSwap
