import HotSwap.Proofs.Mount.Recompute
/-!
# What happens between two reads of a node

Whatever runs changes a store in small steps, of which a whole read of a source is one; so the steps
lead also to the stores in which something begins while something else is under way. A memo that has
to be computed still has to be computed later, unless it was read in between. A mounted node that does
not have to be computed is subscribed to its cell for as long as it lives.
-/

namespace HotSwap

open Machine Relation

/-- A node is replaced by one of its kind, a memo only by one that is not clean. -/
inductive Node.Becomes : Node → Node → Prop
  | signal {v w} : Becomes (.signal v) (.signal w)
  | cell {j k} : Becomes (.cell j) (.cell k)
  | effect {e e'} : Becomes (.effect e) (.effect e')
  | memo {m freshness} (h : freshness ≠ .clean) : Becomes (.memo m) (.memo { m with freshness })

namespace Store

/-- A primitive change of a store. -/
inductive Change (s : Store) : Store → Prop
  | aside {t : Store} (nodes : t.nodes = s.nodes) (edges : t.edges = s.edges)
    (live : ∀ n : NodeId, .node n ∈ t.live → .node n ∈ s.live) (trace : s.trace <:+ t.trace) :
    Change s t
  | collect : Change s s.collect
  | subscribe (source reader : NodeId) :
    Change s { s with edges := Edges.subscribe s.edges source reader }
  | unsubscribe {reader : NodeId} (h : ∀ m, s.nodes[reader]? = some (.memo m) → m.Due) :
    Change s { s with edges := Edges.unsubscribe s.edges reader }
  | add {x : Node} (h : ∀ m, x = .memo m → m.Due) :
    Change s { s with nodes := s.nodes ++ [x], live := .node s.nodes.length :: s.live }
  | set {n : NodeId} {x y : Node} (h : s.nodes[n]? = some x) (hxy : x.Becomes y) :
    Change s { s with nodes := s.nodes.set n y }

inductive Step (s t : Store) : Prop
  | change (h : s.Change t)
  | read {depth : Nat} {n : NodeId} {x : Content} (h : readNode (calls depth) n s = some (x, t))

def Moves : Store → Store → Prop := ReflTransGen Step

def isReadOf (n : NodeId) : Event → Bool
  | .read _ source _ => source == n
  | _ => false

def reads (s : Store) (n : NodeId) : Nat := s.trace.countP (isReadOf n)

def Stale (s : Store) (n : NodeId) : Prop := ∃ m, s.nodes[n]? = some (.memo m) ∧ m.Due

/-- A node that need not be computed hears of its cell while it lives. -/
def Heeds (s : Store) (n cell : NodeId) : Prop :=
  s.Stale n ∨ .node n ∉ s.live ∨ n ∈ Edges.readers s.edges cell

/-- What does not change with regard to the memo `n`, whatever else does. -/
structure Guards (n : NodeId) (s t : Store) : Prop where
  trace : s.trace <:+ t.trace
  length : s.nodes.length ≤ t.nodes.length
  memo : ∀ {m : Memo}, s.nodes[n]? = some (.memo m) →
    ∃ m', t.nodes[n]? = some (.memo m') ∧ m'.recipe = m.recipe
  live : n < s.nodes.length → .node n ∈ t.live → .node n ∈ s.live
  stale : t.reads n = s.reads n → s.Stale n → t.Stale n
  heeds : ∀ {m : Memo} {cell props scope}, s.nodes[n]? = some (.memo m) →
    m.recipe = .mount cell props scope → s.Heeds n cell → t.Heeds n cell

variable {s t u : Store} {n : NodeId}

theorem reads_le (h : s.trace <:+ t.trace) (n : NodeId) : s.reads n ≤ t.reads n :=
  h.sublist.countP_le

namespace Guards

theorem of_same (trace : s.trace <:+ t.trace) (nodes : t.nodes = s.nodes) (edges : t.edges = s.edges)
    (live : ∀ n : NodeId, .node n ∈ t.live → .node n ∈ s.live) : s.Guards n t where
  trace := trace
  length := Nat.le_of_eq (congrArg _ nodes.symm)
  memo {m} hm := ⟨m, nodes ▸ hm, rfl⟩
  live _ := live n
  stale _ := fun ⟨m, hm, due⟩ => ⟨m, nodes ▸ hm, due⟩
  heeds _ _ := Or.imp (fun ⟨m, hm, due⟩ => ⟨m, nodes ▸ hm, due⟩)
    (Or.imp (fun h hl => h (live n hl)) fun h => edges ▸ h)

theorem refl (n : NodeId) (s : Store) : s.Guards n s :=
  .of_same (List.suffix_refl _) rfl rfl fun _ => id

theorem trans (h : s.Guards n t) (h' : t.Guards n u) : s.Guards n u where
  trace := h.trace.trans h'.trace
  length := Nat.le_trans h.length h'.length
  memo hm := by
    obtain ⟨m₁, hm₁, e₁⟩ := h.memo hm
    obtain ⟨m₂, hm₂, e₂⟩ := h'.memo hm₁
    exact ⟨m₂, hm₂, e₂.trans e₁⟩
  live hn hl := h.live hn (h'.live (Nat.lt_of_lt_of_le hn h.length) hl)
  stale hr hs := by
    have h₁ := reads_le h.trace n
    have h₂ := reads_le h'.trace n
    exact h'.stale (by omega) (h.stale (by omega) hs)
  heeds hm hr hs := by
    obtain ⟨m₁, hm₁, e₁⟩ := h.memo hm
    exact h'.heeds hm₁ (e₁.trans hr) (h.heeds hm hr hs)

theorem of_nodes (nodes : ∀ {x : Node}, s.nodes[n]? = some x → t.nodes[n]? = some x)
    (length : s.nodes.length ≤ t.nodes.length) (trace : t.trace = s.trace) (edges : t.edges = s.edges)
    (live : n < s.nodes.length → .node n ∈ t.live → .node n ∈ s.live) : s.Guards n t where
  trace := trace ▸ List.suffix_refl _
  length := length
  memo {m} hm := ⟨m, nodes hm, rfl⟩
  live := live
  stale _ := fun ⟨m, hm, due⟩ => ⟨m, nodes hm, due⟩
  heeds hm _ := Or.imp (fun ⟨m, hm, due⟩ => ⟨m, nodes hm, due⟩)
    (Or.imp (fun h hl => h (live (List.getElem?_eq_some_iff.1 hm).1 hl)) fun h => edges ▸ h)

theorem of_edges {edges : Edges} (h : ∀ {m : Memo} {cell props scope},
    s.nodes[n]? = some (.memo m) → m.recipe = .mount cell props scope →
      n ∈ Edges.readers s.edges cell → s.Stale n ∨ n ∈ Edges.readers edges cell) :
    s.Guards n { s with edges } where
  trace := List.suffix_refl _
  length := Nat.le_refl _
  memo {m} hm := ⟨m, hm, rfl⟩
  live _ := id
  stale _ := id
  heeds hm hr hs := by
    rcases hs with hs | hs | hs
    · exact .inl hs
    · exact .inr (.inl hs)
    · exact (h hm hr hs).imp id .inr

theorem of_collect (n : NodeId) (s : Store) : s.Guards n s.collect where
  trace := List.suffix_refl _
  length := Nat.le_refl _
  memo {m} hm := ⟨m, hm, rfl⟩
  live _ hl := s.survivors_subset hl
  stale _ := id
  heeds _ _ hs := by
    rcases hs with hs | hs | hs
    · exact .inl hs
    · exact .inr (.inl fun hl => hs (s.survivors_subset hl))
    · by_cases hl : .node n ∈ s.collect.live
      · exact .inr (.inr (s.mem_readers_collect hs hl))
      · exact .inr (.inl hl)

end Guards

theorem Change.guards (h : s.Change t) (n : NodeId) : s.Guards n t := by
  cases h with
  | aside nodes edges live trace => exact .of_same trace nodes edges live
  | collect => exact .of_collect n s
  | subscribe source reader =>
    exact .of_edges fun _ _ hs => .inr (Edges.mem_readers_subscribe _ source hs)
  | @unsubscribe reader hdue =>
    refine .of_edges fun hm _ hs => ?_
    by_cases e : n = reader
    · exact .inl ⟨_, hm, hdue _ (e ▸ hm)⟩
    · exact .inr ((Edges.mem_readers_unsubscribe _).2 ⟨hs, e⟩)
  | add _ =>
    refine .of_nodes (getElem?_append_of_some ·) (by simp) rfl rfl fun hn hl => ?_
    simpa [Nat.ne_of_lt hn] using hl
  | @set l x y hx hxy =>
    by_cases e : l = n
    · subst e
      have hself : (s.nodes.set l y)[l]? = some y :=
        List.getElem?_set_self (List.getElem?_eq_some_iff.1 hx).1
      have stale {m : Memo} (hm : s.nodes[l]? = some (.memo m)) :
          ∃ m', y = .memo m' ∧ m'.recipe = m.recipe ∧ m'.Due := by
        obtain rfl : x = .memo m := by simpa [hx] using hm
        cases hxy with
        | memo hf => exact ⟨_, rfl, rfl, fun e => absurd e hf⟩
      exact {
        trace := List.suffix_refl _
        length := by simp
        memo := fun hm => by
          obtain ⟨m', rfl, hr, -⟩ := stale hm
          exact ⟨m', hself, hr⟩
        live := fun _ => id
        stale := fun _ ⟨m, hm, _⟩ => by
          obtain ⟨m', rfl, -, due⟩ := stale hm
          exact ⟨m', hself, due⟩
        heeds := fun hm _ _ => by
          obtain ⟨m', rfl, -, due⟩ := stale hm
          exact .inl ⟨m', hself, due⟩ }
    · exact .of_nodes (fun hn => by rw [List.getElem?_set_ne e, hn]) (by simp) rfl rfl fun _ => id

theorem Change.same (nodes : t.nodes = s.nodes) (edges : t.edges = s.edges)
    (live : t.live = s.live) (trace : t.trace = s.trace) : s.Change t :=
  .aside nodes edges (fun _ hl => live ▸ hl) (trace ▸ List.suffix_refl _)

theorem accommodating_of_change {R : Store → Store → Prop} (refl : ∀ s, R s s)
    (trans : ∀ ⦃s t u⦄, R s t → R t u → R s u) (change : ∀ {s t}, s.Change t → R s t) :
    Accommodating R := by
  have around {s s' t' t : Store} (h : R s' t') (hs : s.Change s') (ht : t'.Change t) : R s t :=
    trans (trans (change hs) h) (change ht)
  exact {
    refl := refl
    trans := trans
    emit := fun s e => change (.aside rfl rfl (fun _ => id) (List.suffix_cons e _))
    addMemo := fun _ => change (.add fun _ => by rintro ⟨⟩ _; rfl)
    signal := fun _ h => change (.set h .signal)
    mark := fun h => change (.set h (.memo nofun))
    effect := fun _ _ _ h => change (.set h .effect)
    track := fun {s r _ _} n _ => trans (change (.subscribe n r)) (change (.same rfl rfl rfl rfl))
    unsubscribe := fun h => change (.unsubscribe fun _ hm => by simp [h] at hm)
    collect := fun _ => change .collect
    roots := fun _ _ => change (.same rfl rfl rfl rfl)
    frame := fun _ h => around h (.same rfl rfl rfl rfl) (.same rfl rfl rfl rfl)
    providing := fun _ h => around h (.same rfl rfl rfl rfl) (.same rfl rfl rfl rfl)
    scope := fun _ h => around h (.same rfl rfl rfl rfl) (.same rfl rfl rfl rfl)
    pinned := fun _ h => around h (.same rfl rfl rfl rfl) (.same rfl rfl rfl rfl)
    addSignal := fun _ _ => change (.add nofun)
    addEffect := fun _ _ => change (.add nofun)
    addFunction := fun _ _ =>
      change (.aside rfl rfl (fun _ h => by simpa using h) (List.suffix_refl _))
    contexts := fun _ _ _ _ => change (.same rfl rfl rfl rfl)
    dirty := fun h => change (.set h (.memo nofun))
    properties := fun _ _ => change (.same rfl rfl rfl rfl) }

theorem accommodating_guards (n : NodeId) : Accommodating (Guards n) :=
  accommodating_of_change (.refl n) (fun _ _ _ => .trans) fun h => h.guards n

theorem indifferent_trace : Indifferent fun s t : Store => s.trace <:+ t.trace where
  toAdmissible := (accommodating_of_change (R := fun s t => s.trace <:+ t.trace)
    (fun _ => List.suffix_refl _) (fun _ _ _ => List.IsSuffix.trans)
    fun h => (h.guards 0).trace).toAdmissible
  edges _ _ := List.suffix_refl _
  settle _ _ := List.suffix_refl _

theorem guards_settled {l : NodeId} {m : Memo} (hne : l ≠ n) (hl : s.nodes[l]? = some (.memo m))
    (x : Content) : s.Guards n (s.settled l x) := by
  have hfilled : s.Guards n (s.filled l m x) :=
    .of_nodes (fun hn => (List.getElem?_set_ne hne).trans hn) (by simp [filled]) rfl rfl fun _ => id
  rcases settled_cases hl x with e | e <;> rw [e]
  · exact hfilled
  · exact hfilled.trans (.of_collect n _)

theorem guards_recompute {d : Nat} (hc : (calls d).Within (Guards n) (calls d)) {l : NodeId} {m : Memo}
    (hne : l ≠ n) (hl : s.nodes[l]? = some (.memo m)) (due : m.Due) {x : Content}
    (h : recompute (calls d) l m s = some (x, t)) : s.Guards n t := by
  obtain ⟨u, hu, rfl⟩ := recompute_eq_some h
  have hstart : s.Guards n { s with
      edges := Edges.unsubscribe s.edges l, frames := { reader := some l } :: s.frames } :=
    ((Change.unsubscribe fun m' hm' => by
      obtain rfl : m = m' := by simpa [hl] using hm'
      exact due).guards n).trans (.of_same (List.suffix_refl _) rfl rfl fun _ => id)
  have hrun := (runRecipe_within (accommodating_guards n).toAdmissible hc l m.recipe _ hu).2
  obtain ⟨m', hm', -⟩ := (runRecipe_within indifferent_steady.toAdmissible
    (indifferent_steady.calls_self d) l m.recipe _ hu).2.memo hl
  have hpop : u.Guards n { u with frames := u.frames.tail } :=
    .of_same (List.suffix_refl _) rfl rfl fun _ => id
  exact ((hstart.trans hrun).trans hpop).trans
    (guards_settled (s := { u with frames := u.frames.tail }) hne hm' x)

theorem heeds_recompute {d : Nat} {m : Memo} {cell : NodeId} {props : Json} {scope : Scope}
    (hm : s.nodes[n]? = some (.memo m)) (hr : m.recipe = .mount cell props scope) {x : Content}
    (h : recompute (calls d) n m s = some (x, t)) : t.Heeds n cell := by
  obtain ⟨u, hu, rfl⟩ := recompute_eq_some h
  obtain ⟨m', hm', -⟩ := (runRecipe_within indifferent_steady.toAdmissible
    (indifferent_steady.calls_self d) n m.recipe _ hu).2.memo hm
  by_cases hl : .node n ∈ (Store.settled { u with frames := u.frames.tail } n x).live
  · rw [hr] at hu
    have hlive : .node n ∈ u.live := live_settled (s := { u with frames := u.frames.tail }) hm' hl
    have hmem := runRecipe_mount_subscribed (calls_preserves (fun _ _ => "") d) rfl
      (s := { s with
        edges := Edges.unsubscribe s.edges n, frames := { reader := some n } :: s.frames })
      hm hr hu hlive
    exact .inr (.inr (mem_readers_settled (s := { u with frames := u.frames.tail }) hm' hmem hl))
  · exact .inr (.inl hl)

theorem guards_readNode {d : Nat} {x : Content} (h : readNode (calls d) n s = some (x, t)) :
    s.Guards n t := by
  have hsteady : s.Steady t := ((indifferent_steady.calls_self (d + 1)).read n s h).2
  have htracked : s.Guards n (s.tracked n) :=
    (track_within (accommodating_guards n).toAdmissible n s (track_eq n s)).2
  simp only [readNode, bind_apply, track_eq, Option.bind_some] at h
  obtain ⟨⟨y, u⟩, hu, h⟩ := Option.bind_eq_some_iff.1 h
  cases h
  have htrace : s.trace <:+ u.trace := htracked.trace.trans
    (content_within indifferent_trace.toAdmissible n (fun _ _ _ _ => recompute_within
      indifferent_trace (indifferent_trace.calls_self d) n _ _) _ hu).2
  refine ⟨htrace.trans (List.suffix_cons _ _), hsteady.nodes, hsteady.memo, hsteady.live,
    fun hreads _ => ?_, fun {m cell props scope} hm hr hs => ?_⟩
  · have hle := reads_le htrace n
    have hlt : ∀ e, Store.reads { u with trace := .read e n y :: u.trace } n = u.reads n + 1 :=
      fun e => List.countP_cons_of_pos (by simp [isReadOf])
    rw [hlt] at hreads
    omega
  · have hm' : (s.tracked n).nodes[n]? = some (.memo m) := by rwa [nodes_tracked]
    rw [content_of_memo _ hm] at hu
    suffices hheeds : u.Heeds n cell from hheeds
    rcases Memo.due_or_clean m with due | ⟨v, hf, hv⟩
    · rw [memoContent_of_due _ n due] at hu
      exact heeds_recompute hm' hr hu
    · rw [memoContent_of_clean _ n hf hv] at hu
      cases hu
      exact htracked.heeds hm hr hs

/-- No call of a program lets a node forget that it has to be computed. -/
theorem calls_guards (n : NodeId) : ∀ d, (calls d).Within (Guards n) (calls d)
  | 0 => Calls.none_within _ _
  | d + 1 => by
    have hR := (accommodating_guards n).toAdmissible
    have ih := calls_guards n d
    refine ⟨fun l => ?_, notifyNode_within hR ih, renderComponent_within hR ih,
      resolveView_within hR ih⟩
    by_cases e : l = n
    · subst e
      exact fun _ _ _ h => ⟨h, guards_readNode h⟩
    · exact readNode_within hR l fun s m hm due _ _ h => ⟨h, guards_recompute ih e hm due h⟩

theorem Step.guards (h : s.Step t) (n : NodeId) : s.Guards n t := by
  cases h with
  | change h => exact h.guards n
  | @read d l x h => exact ((calls_guards n (d + 1)).read l s h).2

namespace Moves

theorem guards (h : s.Moves t) (n : NodeId) : s.Guards n t := by
  induction h with
  | refl => exact .refl n s
  | tail _ hstep ih => exact ih.trans (hstep.guards n)

theorem of_change (h : s.Change t) : s.Moves t := .single (.change h)

theorem accommodating : Accommodating Moves :=
  accommodating_of_change (fun _ => .refl) (fun _ _ _ => .trans) of_change

theorem calls_within : ∀ d, (calls d).Within Moves (calls d)
  | 0 => Calls.none_within _ _
  | d + 1 =>
    have hR := accommodating.toAdmissible
    have ih := calls_within d
    ⟨fun _ _ _ _ h => ⟨h, .single (.read h)⟩, notifyNode_within hR ih, renderComponent_within hR ih,
      resolveView_within hR ih⟩

/-- Whatever a program does between edits is made of such steps. -/
theorem of_action (a : Action) (h : a.run s = some ((), t)) : s.Moves t :=
  (a.run_within accommodating (calls_within nesting) s h).2

theorem of_redirect {cell : NodeId} {j k : Option ComponentId} (hcell : s.nodes[cell]? = some (.cell j))
    (h : setCell cell k s = some ((), t)) : s.Moves t := by
  have hset : s.Moves (Store.collect { s with nodes := s.nodes.set cell (.cell k) }) :=
    .tail (of_change (.set hcell .cell)) (.change .collect)
  exact hset.trans ((calls_within nesting).notify cell _ h).2

end Moves

variable {d : Nat} {m : Memo}

theorem stale_of_mark (hm : s.nodes[n]? = some (.memo m))
    (h : Machine.mark (calls d) n s = some ((), t)) (hreads : t.reads n = s.reads n) :
    t.Stale n := by
  by_cases hf : m.freshness = .clean
  · simp only [Machine.mark, bind_apply, node?_apply, Option.bind_some, hm, markMemo, hf,
      setNode_apply] at h
    have hself : (s.nodes.set n (.memo { m with freshness := .maybeDirty }))[n]? =
        some (.memo { m with freshness := .maybeDirty }) :=
      List.getElem?_set_self (List.getElem?_eq_some_iff.1 hm).1
    exact ((calls_guards n d).notify n _ h).2.stale hreads ⟨_, hself, nofun⟩
  · exact ((mark_within (accommodating_guards n).toAdmissible (calls_guards n d) n s h).2).stale hreads
      ⟨m, hm, fun e => absurd e hf⟩

/-- Those that are told have to be computed, but for those that are read again meanwhile. -/
theorem stale_of_marked {ns : List NodeId} (hn : n ∈ ns) (hm : s.nodes[n]? = some (.memo m))
    (h : forEach (Machine.mark (calls d)) ns s = some ((), t)) (hreads : t.reads n = s.reads n) :
    t.Stale n := by
  have hR := (accommodating_guards n).toAdmissible
  induction ns generalizing s m with
  | nil => nomatch hn
  | cons l ns ih =>
    obtain ⟨_, u, hu, h⟩ := bind_eq_some.1 h
    have hmark := (mark_within hR (calls_guards n d) l s hu).2
    have hrest := (forEach_within hR (mark_within hR (calls_guards n d)) ns u h).2
    have h₁ := reads_le hmark.trace n
    have h₂ := reads_le hrest.trace n
    by_cases e : n = l
    · subst e
      exact hrest.stale (by omega) (stale_of_mark hm hu (by omega))
    · obtain ⟨m', hm', -⟩ := hmark.memo hm
      exact ih (List.mem_of_ne_of_mem e hn) hm' h (by omega)

/-- A redirection reaches every node that is mounted over the cell and lives. -/
theorem stale_of_redirect {cell : NodeId} {k : Option ComponentId} {props : Json} {scope : Scope}
    (hne : cell ≠ n) (hm : s.nodes[n]? = some (.memo m)) (hr : m.recipe = .mount cell props scope)
    (hs : s.Heeds n cell) (h : setCell cell k s = some ((), t)) :
    s.Guards n t ∧ (.node n ∈ t.live → t.reads n = s.reads n → t.Stale n) := by
  have hR := (accommodating_guards n).toAdmissible
  let s₁ : Store := Store.collect { s with nodes := s.nodes.set cell (.cell k) }
  have hcell : s.Guards n { s with nodes := s.nodes.set cell (.cell k) } :=
    .of_nodes (fun hn => (List.getElem?_set_ne hne).trans hn) (by simp) rfl rfl fun _ => id
  have hset : s.Guards n s₁ := hcell.trans (.of_collect n _)
  have hnotify : notifyNode topCalls cell s₁ = some ((), t) :=
    ((calls_le (Nat.le_succ nesting)).notify cell s₁ h).1
  have htold := (notifyNode_within hR (calls_guards n nesting) cell s₁ hnotify).2
  refine ⟨hset.trans htold, fun hl hreads => ?_⟩
  obtain ⟨m₁, hm₁, er⟩ := hset.memo hm
  have hl₁ : .node n ∈ s₁.live := htold.live (List.getElem?_eq_some_iff.1 hm₁).1 hl
  have hreads₁ : s₁.reads n = s.reads n := rfl
  rcases hset.heeds hm hr hs with hstale | hdead | hmem
  · exact htold.stale (hreads.trans hreads₁.symm) hstale
  · exact absurd hl₁ hdead
  · obtain ⟨targets, u, hu, hrest⟩ := bind_eq_some.1 hnotify
    cases hu
    obtain ⟨_, u, hmarked, hscheduled⟩ := bind_eq_some.1 hrest
    have h₁ := (forEach_within hR (mark_within hR (calls_guards n nesting)) _ _ hmarked).2
    have h₂ := (forEach_within hR (schedule_within hR (calls_guards n nesting)) _ _ hscheduled).2
    have hle₁ := reads_le h₁.trace n
    have hle₂ := reads_le h₂.trace n
    refine h₂.stale (by omega) (stale_of_marked (List.mem_filter.2 ⟨hmem, decide_eq_true hl₁⟩)
      hm₁ hmarked (by omega))

end Store

end HotSwap
