import Mathlib.Logic.Relation
import HotSwap.Proofs.Evaluation.Readers
import HotSwap.Proofs.Graph.Value
/-!
# Graphs of signals, memos and effects

A store whose nodes are signals, memos that only read, and effects, each of which can only read older
nodes. `cached` is what its sources hold at the moment, `scratch` what they would hold if every memo
were computed from the signals alone.
-/

namespace HotSwap

open Machine

namespace Edges

variable (e : Edges) {source reader : NodeId}

theorem readers_unsubscribe_sublist :
    (readers (unsubscribe e reader) source).Sublist (readers e source) := by
  rw [readers, readers, unsubscribe, OrderedMap.get?_restrict]
  cases e.get? source with
  | none => exact .slnil
  | some rs =>
    rw [Option.bind_some, Option.getD_some, without]
    split
    · exact List.nil_sublist rs
    · exact List.filter_sublist

theorem readers_unsubscribeAll_sublist (rs : List NodeId) :
    (readers (rs.foldl unsubscribe e) source).Sublist (readers e source) := by
  induction rs generalizing e with
  | nil => exact .refl _
  | cons r rs ih => exact (ih (unsubscribe e r)).trans (readers_unsubscribe_sublist e)

end Edges

/-- The body that a memo over values or an effect runs. -/
def Node.body? : Node → Option LinkedExpr
  | .memo ⟨.value _ body, _, _⟩ => some body
  | .effect e => some e.body
  | _ => none

def Node.cached : Node → Json
  | .signal v => v
  | .memo m => (m.value.map Content.toJson).getD .null
  | _ => .null

/-- Nodes that a graph is made of, at a place where all that they can read comes before them. -/
inductive Node.Placed (n : NodeId) : Node → Prop
  | signal (v : Json) : Placed n (.signal v)
  | memo {name : String} {body : LinkedExpr} {value : Option Content} {freshness : Freshness} :
    body.onlyReads = true → (∀ y ∈ body.gets, y < n) → (∀ v, value = some v → ∃ j, v = .json j) →
      Placed n (.memo ⟨.value name body, value, freshness⟩)
  | effect {e : Effect} : e.body.viewless = true → (∀ y ∈ e.body.gets, y < n) → Placed n (.effect e)

theorem Node.Placed.gets_lt {n y : NodeId} {x : Node} {body : LinkedExpr} (h : x.Placed n)
    (hb : x.body? = some body) (hy : y ∈ body.gets) : y < n := by
  cases h with
  | signal v => cases hb
  | memo _ hlt _ =>
    cases hb
    exact hlt y hy
  | effect _ hlt =>
    cases hb
    exact hlt y hy

namespace Store

variable (s : Store)

def cached (n : NodeId) : Json := ((s.nodes[n]?).map Node.cached).getD .null

def body? (n : NodeId) : Option LinkedExpr := (s.nodes[n]?).bind Node.body?

/-- The value of a source from the signals alone, through memos that are nested less than `d` deep. -/
def scratchWithin : Nat → NodeId → Json
  | 0, _ => .null
  | d + 1, n =>
    match s.nodes[n]? with
    | some (.signal v) => v
    | some (.memo ⟨.value _ body, _, _⟩) => body.value (scratchWithin d) {}
    | _ => .null

/-- The value of a source from the signals alone. A memo reads older nodes only, so its number bounds
the nesting. -/
def scratch (n : NodeId) : Json := s.scratchWithin (n + 1) n

def reader? : Option NodeId := s.frames.head?.bind Frame.reader

/-- The source `n` is in the body of `k`. -/
def Feeds (n k : NodeId) : Prop := ∃ body, s.body? k = some body ∧ n ∈ body.gets

/-- `k` is `n`, or reads it, directly or through memos. -/
def Leads : NodeId → NodeId → Prop := Relation.ReflTransGen s.Feeds

/-- What runs now has this source in its body. -/
def MayRead (n : NodeId) : Prop :=
  ∀ r, s.reader? = some r → s.Feeds n r

structure Graph : Prop where
  placed : ∀ {n : NodeId} {x : Node}, s.nodes[n]? = some x → x.Placed n
  closed : ∀ {k n : NodeId}, s.Feeds n k → .node k ∈ s.live → .node n ∈ s.live
  edges : ∀ {k n : NodeId}, k ∈ Edges.readers s.edges n → s.Feeds n k
  nodup : ∀ n, (Edges.readers s.edges n).Nodup
  past : ∀ {r n : NodeId} {v : Content}, .read (some r) n v ∈ s.trace →
    ∃ body, s.body? r = some body

variable {s}

theorem cached_of_signal {n : NodeId} {v : Json} (h : s.nodes[n]? = some (.signal v)) :
    s.cached n = v := by simp [cached, h, Node.cached]

theorem cached_of_memo {n : NodeId} {m : Memo} (h : s.nodes[n]? = some (.memo m)) :
    s.cached n = (m.value.map Content.toJson).getD .null := by simp [cached, h, Node.cached]

theorem cached_congr {t : Store} {n : NodeId} (h : t.nodes[n]? = s.nodes[n]?) :
    t.cached n = s.cached n := by rw [cached, cached, h]

theorem scratch_of_signal {n : NodeId} {v : Json} (hn : s.nodes[n]? = some (.signal v)) :
    s.scratch n = v := by simp [scratch, scratchWithin, hn]

theorem scratchWithin_succ (d : Nat) (n : NodeId) : s.scratchWithin (d + 1) n =
    if s.memoAt n = none then s.cached n
    else ((s.body? n).map fun body => body.value (s.scratchWithin d) {}).getD .null := by
  cases hn : s.nodes[n]? with
  | none => simp [scratchWithin, memoAt, cached, hn]
  | some x =>
    cases x with
    | memo m =>
      obtain ⟨recipe, _, _⟩ := m
      cases recipe <;> simp [scratchWithin, memoAt, body?, Node.body?, hn]
    | _ => simp [scratchWithin, memoAt, cached, Node.cached, hn]

theorem scratch_congr {t : Store} (body : ∀ n, t.body? n = s.body? n)
    (memos : ∀ n, t.memoAt n = none ↔ s.memoAt n = none)
    (cached : ∀ n, s.memoAt n = none → t.cached n = s.cached n) : t.scratch = s.scratch := by
  have within : ∀ d, t.scratchWithin d = s.scratchWithin d := by
    intro d
    induction d with
    | zero => rfl
    | succ d ih =>
      funext n
      rw [scratchWithin_succ, scratchWithin_succ, body, ih]
      by_cases hm : s.memoAt n = none
      · rw [if_pos hm, if_pos ((memos n).2 hm), cached n hm]
      · rw [if_neg hm, if_neg (mt (memos n).1 hm)]
  funext n
  exact congrFun (within (n + 1)) n

theorem body?_eq_some {n : NodeId} {body : LinkedExpr} :
    s.body? n = some body ↔ ∃ x, s.nodes[n]? = some x ∧ x.body? = some body :=
  Option.bind_eq_some_iff

theorem body?_set {n : NodeId} {x y : Node} (hn : s.nodes[n]? = some x) (hy : y.body? = x.body?)
    (k : NodeId) : { s with nodes := s.nodes.set n y }.body? k = s.body? k := by
  by_cases hk : n = k
  · subst hk
    simp only [body?, hn, List.getElem?_set_self (List.getElem?_eq_some_iff.1 hn).1,
      Option.bind_some, hy]
  · simp [body?, List.getElem?_set_ne hk]

theorem lt_of_body? {n : NodeId} {body : LinkedExpr} (h : s.body? n = some body) :
    n < s.nodes.length := by
  obtain ⟨x, hx, _⟩ := body?_eq_some.1 h
  exact (List.getElem?_eq_some_iff.1 hx).1

theorem body?_congr {t : Store} {n : NodeId} (h : t.nodes[n]? = s.nodes[n]?) :
    t.body? n = s.body? n := by rw [body?, body?, h]

namespace Graph

theorem congr {t : Store} (h : s.Graph) (nodes : t.nodes = s.nodes) (edges : t.edges = s.edges)
    (live : t.live = s.live) (trace : t.trace = s.trace) : t.Graph := by
  have hbody (k : NodeId) : t.body? k = s.body? k := body?_congr (by rw [nodes])
  have hfeeds {n k : NodeId} : t.Feeds n k ↔ s.Feeds n k := by simp only [Feeds, hbody]
  exact ⟨fun hn => h.placed (nodes ▸ hn), fun hf hk => live ▸ h.closed (hfeeds.1 hf) (live ▸ hk),
    fun hk => hfeeds.2 (h.edges (edges ▸ hk)), fun n => edges ▸ h.nodup n,
    fun hr => by simpa only [hbody] using h.past (trace ▸ hr)⟩

theorem lt_of_feeds (h : s.Graph) {n k : NodeId} (hf : s.Feeds n k) : n < k := by
  obtain ⟨body, hb, hn⟩ := hf
  obtain ⟨x, hx, hxb⟩ := body?_eq_some.1 hb
  exact (h.placed hx).gets_lt hxb hn

theorem le_of_leads (h : s.Graph) {n k : NodeId} (hl : s.Leads n k) : n ≤ k := by
  induction hl with
  | refl => exact Nat.le_refl n
  | tail _ hf ih => exact Nat.le_trans ih (Nat.le_of_lt (h.lt_of_feeds hf))

/-- Nesting deeper than a node's number makes no difference. -/
theorem scratchWithin_eq (h : s.Graph) {d n : Nat} (hd : n < d) :
    s.scratchWithin d n = s.scratch n := by
  have agree : ∀ a b n, n < a → n < b → s.scratchWithin a n = s.scratchWithin b n := by
    intro a
    induction a with
    | zero => exact fun _ _ hlt _ => absurd hlt (Nat.not_lt_zero _)
    | succ a ih =>
      intro b n ha hb
      cases b with
      | zero => exact absurd hb (Nat.not_lt_zero _)
      | succ b =>
        simp only [scratchWithin]
        split
        · rfl
        · rename_i hn
          refine (Expr.value_congr _ fun y hy => ?_).1
          have hlt : y < n := (h.placed hn).gets_lt rfl (Expr.reads_subset_gets _ hy)
          exact ih b y (Nat.lt_of_lt_of_le hlt (Nat.le_of_lt_succ ha))
            (Nat.lt_of_lt_of_le hlt (Nat.le_of_lt_succ hb))
        · rfl
  exact agree _ _ _ hd n.lt_succ_self

theorem scratch_of_memo (h : s.Graph) {n : NodeId} {name : String} {body : LinkedExpr}
    {value : Option Content} {freshness : Freshness}
    (hn : s.nodes[n]? = some (.memo ⟨.value name body, value, freshness⟩)) :
    s.scratch n = body.value s.scratch {} := by
  have hunfold : s.scratch n = body.value (s.scratchWithin n) {} := by
    simp [scratch, scratchWithin, hn]
  rw [hunfold]
  refine (Expr.value_congr _ fun y hy => ?_).1
  exact h.scratchWithin_eq ((h.placed hn).gets_lt rfl (Expr.reads_subset_gets _ hy))

theorem rewire (h : s.Graph) {es : Edges}
    (hes : ∀ {k n : NodeId}, k ∈ Edges.readers es n → s.Feeds n k)
    (hnodup : ∀ n, (Edges.readers es n).Nodup) : { s with edges := es }.Graph :=
  { h with edges := hes, nodup := hnodup }

theorem subscribe (h : s.Graph) {n r : NodeId} (hr : s.Feeds n r) :
    { s with edges := Edges.subscribe s.edges n r }.Graph := by
  refine h.rewire (fun {k x} hk => ?_) fun x => ?_
  · by_cases hx : x = n
    · subst hx
      rw [Edges.readers_subscribe_self] at hk
      split at hk
      · exact h.edges hk
      · rcases List.mem_append.1 hk with hk | hk
        · exact h.edges hk
        · rwa [List.mem_singleton.1 hk]
    · exact h.edges (by rwa [Edges.readers_subscribe_of_ne s.edges hx] at hk)
  · by_cases hx : x = n
    · subst hx
      rw [Edges.readers_subscribe_self]
      split
      · exact h.nodup x
      · refine List.nodup_append.2 ⟨h.nodup x, List.pairwise_singleton _ r, fun k hk j hj => ?_⟩
        rintro rfl
        exact ‹r ∉ _› (List.mem_singleton.1 hj ▸ hk)
    · rw [Edges.readers_subscribe_of_ne s.edges hx]
      exact h.nodup x

theorem unsubscribe (h : s.Graph) (r : NodeId) :
    { s with edges := Edges.unsubscribe s.edges r }.Graph :=
  h.rewire (fun hk => h.edges ((Edges.mem_readers_unsubscribe _).1 hk).1) fun n =>
    (h.nodup n).sublist (Edges.readers_unsubscribe_sublist _)

theorem set (h : s.Graph) {n : NodeId} {x y : Node} (hn : s.nodes[n]? = some x) (hy : y.Placed n)
    (hb : y.body? = x.body?) : { s with nodes := s.nodes.set n y }.Graph := by
  have hbody := body?_set hn hb
  have hfeeds {n' k : NodeId} : { s with nodes := s.nodes.set n y }.Feeds n' k ↔ s.Feeds n' k := by
    simp only [Feeds, hbody]
  refine ⟨fun {k z} hk => ?_, fun hf => h.closed (hfeeds.1 hf), fun hk => hfeeds.2 (h.edges hk),
    h.nodup, fun hr => ?_⟩
  · by_cases hnk : n = k
    · subst hnk
      rw [List.getElem?_set_self (List.getElem?_eq_some_iff.1 hn).1] at hk
      cases hk
      exact hy
    · rw [List.getElem?_set_ne hnk] at hk
      exact h.placed hk
  · simpa only [hbody] using h.past hr

theorem trace (h : s.Graph) {e : Event}
    (he : ∀ r n v, e = .read (some r) n v → ∃ body, s.body? r = some body) :
    { s with trace := e :: s.trace }.Graph :=
  { h with
    past := fun hr => by
      rcases List.mem_cons.1 hr with hr | hr
      · exact he _ _ _ hr.symm
      · exact h.past hr }

theorem collect (h : s.Graph) : s.collect.Graph := by
  have hheld {n k : NodeId} (hf : s.Feeds n k) : .node n ∈ s.contents (.node k) := by
    obtain ⟨body, hb, hn⟩ := hf
    obtain ⟨x, hx, hxb⟩ := body?_eq_some.1 hb
    have hhandles : .node n ∈ x.handles := by
      cases h.placed hx with
      | signal => cases hxb
      | memo =>
        cases hxb
        exact List.mem_append_left _ (Expr.mem_handles_of_mem_gets _ hn)
      | effect =>
        cases hxb
        exact Expr.mem_handles_of_mem_gets _ hn
    simpa [contents, hx] using hhandles
  refine { h.rewire (fun hk => h.edges ((Edges.mem_readers_unsubscribeAll _ _).1 hk).1) fun n =>
      (h.nodup n).sublist (Edges.readers_unsubscribeAll_sublist _ _) with
    closed := fun hf hk => ?_ }
  exact mem_live_collect (hheld hf) (h.closed hf (s.survivors_subset hk)) hk

end Graph

end Store

end HotSwap
