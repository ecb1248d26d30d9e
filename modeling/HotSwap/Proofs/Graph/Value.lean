import HotSwap.Eval.Body
/-!
# What a body computes

The value of a body that only reads, given what its sources hold, and the sources that it reads on the
way. Of two branches only the chosen one is read, so the sources depend on what they hold. Neither
mentions a store: this is what caches are compared with.
-/

namespace HotSwap.Expr

mutual

/-- Whether all that a body does is to read, and to tell what it saw. -/
def onlyReads : LinkedExpr → Bool
  | .literal _ | .props | .current | .member _ | .get _ => true
  | .add es | .mul es | .concat es | .list es | .seq es => onlyReadsAll es
  | .less a b => a.onlyReads && b.onlyReads
  | .cond t a b => t.onlyReads && a.onlyReads && b.onlyReads
  | .log e => e.onlyReads
  | .peek _ | .untrack _ | .set _ _ | .use _ | .provide _ _ _ | .text _ | .render _ _ | .tracking
  | .dispose _ | .release _ => false

def onlyReadsAll : List LinkedExpr → Bool
  | [] => true
  | e :: rest => e.onlyReads && onlyReadsAll rest

end

mutual

def viewless : LinkedExpr → Bool
  | .text _ | .render _ _ => false
  | .add es | .mul es | .concat es | .list es | .seq es => viewlessAll es
  | .less a b | .provide _ a b => a.viewless && b.viewless
  | .cond t a b => t.viewless && a.viewless && b.viewless
  | .untrack e | .set _ e | .log e => e.viewless
  | .literal _ | .props | .current | .member _ | .get _ | .peek _ | .use _ | .tracking | .dispose _
  | .release _ => true

def viewlessAll : List LinkedExpr → Bool
  | [] => true
  | e :: rest => e.viewless && viewlessAll rest

end

mutual

/-- The sources that a body can read at all. -/
def gets : LinkedExpr → List NodeId
  | .get n => [n]
  | .add es | .mul es | .concat es | .list es | .seq es => getsAll es
  | .less a b | .provide _ a b => a.gets ++ b.gets
  | .cond t a b => t.gets ++ a.gets ++ b.gets
  | .untrack e | .set _ e | .log e | .render _ e => e.gets
  | .literal _ | .props | .current | .member _ | .peek _ | .use _ | .text _ | .tracking | .dispose _
  | .release _ => []

def getsAll : List LinkedExpr → List NodeId
  | [] => []
  | e :: rest => e.gets ++ getsAll rest

end

section

variable (ρ : NodeId → Json) (env : Env)

mutual

/-- The value of a body that only reads, if its sources hold `ρ`. -/
def value : LinkedExpr → Json
  | .literal v => v
  | .props => env.props
  | .current => env.current
  | .member k => env.props.member k
  | .get n => ρ n
  | .add es => Json.ofWord ((values es).foldl (fun a v => a + v.word) 0)
  | .mul es => Json.ofWord ((values es).foldl (fun a v => a * v.word) 1)
  | .less a b => .bool (decide ((value a).word < (value b).word))
  | .cond t a b => if (value t).truthy then value a else value b
  | .concat es => .string (String.join ((values es).map Json.plain))
  | .list es => .array (values es)
  | .seq es => (values es).getLastD .null
  | .log e => value e
  | _ => .null

def values : List LinkedExpr → List Json
  | [] => []
  | e :: rest => value e :: values rest

end

mutual

/-- The sources that a body reads, in order, if they hold `ρ`. -/
def reads : LinkedExpr → List NodeId
  | .get n => [n]
  | .add es | .mul es | .concat es | .list es | .seq es => readsAll es
  | .less a b => reads a ++ reads b
  | .cond t a b => reads t ++ if (value ρ env t).truthy then reads a else reads b
  | .log e => reads e
  | _ => []

def readsAll : List LinkedExpr → List NodeId
  | [] => []
  | e :: rest => reads e ++ readsAll rest

end

end

section

variable {ρ ρ' : NodeId → Json} {env : Env}

mutual

theorem reads_subset_gets : ∀ e : LinkedExpr, e.reads ρ env ⊆ e.gets
  | .get _ => List.Subset.refl _
  | .add es | .mul es | .concat es | .list es | .seq es => readsAll_subset_getsAll es
  | .less a b => List.append_subset.2
      ⟨List.subset_append_of_subset_left _ (reads_subset_gets a),
        List.subset_append_of_subset_right _ (reads_subset_gets b)⟩
  | .cond t a b => by
    have hbranch : (if (value ρ env t).truthy then reads ρ env a else reads ρ env b) ⊆
        a.gets ++ b.gets := by
      split
      · exact List.subset_append_of_subset_left _ (reads_subset_gets a)
      · exact List.subset_append_of_subset_right _ (reads_subset_gets b)
    rw [reads, gets, List.append_assoc]
    exact List.append_subset.2 ⟨List.subset_append_of_subset_left _ (reads_subset_gets t),
      List.subset_append_of_subset_right _ hbranch⟩
  | .log e => reads_subset_gets e
  | .literal _ | .props | .current | .member _ | .peek _ | .untrack _ | .set _ _ | .use _
  | .provide _ _ _ | .text _ | .render _ _ | .tracking | .dispose _ | .release _ =>
    List.nil_subset _

theorem readsAll_subset_getsAll : ∀ es : List LinkedExpr, readsAll ρ env es ⊆ getsAll es
  | [] => List.nil_subset _
  | e :: rest => List.append_subset.2
      ⟨List.subset_append_of_subset_left _ (reads_subset_gets e),
        List.subset_append_of_subset_right _ (readsAll_subset_getsAll rest)⟩

end

mutual

theorem value_congr : ∀ e : LinkedExpr, (∀ n ∈ e.reads ρ env, ρ' n = ρ n) →
    e.value ρ' env = e.value ρ env ∧ e.reads ρ' env = e.reads ρ env
  | .get n, h => ⟨h n (List.mem_singleton_self n), rfl⟩
  | .add es, h | .mul es, h | .concat es, h | .list es, h | .seq es, h => by
    obtain ⟨hv, hr⟩ := values_congr es h
    exact ⟨by simp only [value, hv], hr⟩
  | .less a b, h => by
    obtain ⟨hv, hr⟩ := value_congr a fun n hn => h n (List.mem_append_left _ hn)
    obtain ⟨hv', hr'⟩ := value_congr b fun n hn => h n (List.mem_append_right _ hn)
    exact ⟨by simp only [value, hv, hv'], by simp only [reads, hr, hr']⟩
  | .cond t a b, h => by
    obtain ⟨hv, hr⟩ := value_congr t fun n hn => h n (List.mem_append_left _ hn)
    have hbranch : ∀ n ∈ (if (value ρ env t).truthy then reads ρ env a else reads ρ env b),
        ρ' n = ρ n := fun n hn => h n (List.mem_append_right _ hn)
    simp only [value, reads, hv, hr]
    split at hbranch
    · obtain ⟨hv', hr'⟩ := value_congr a hbranch
      simp only [*, if_true, and_self]
    · obtain ⟨hv', hr'⟩ := value_congr b hbranch
      simp [*]
  | .log e, h => value_congr e h
  | .literal _, _ | .props, _ | .current, _ | .member _, _ | .peek _, _ | .untrack _, _
  | .set _ _, _ | .use _, _ | .provide _ _ _, _ | .text _, _ | .render _ _, _ | .tracking, _
  | .dispose _, _ | .release _, _ => ⟨rfl, rfl⟩

theorem values_congr : ∀ es : List LinkedExpr, (∀ n ∈ readsAll ρ env es, ρ' n = ρ n) →
    values ρ' env es = values ρ env es ∧ readsAll ρ' env es = readsAll ρ env es
  | [], _ => ⟨rfl, rfl⟩
  | e :: rest, h => by
    obtain ⟨hv, hr⟩ := value_congr e fun n hn => h n (List.mem_append_left _ hn)
    obtain ⟨hv', hr'⟩ := values_congr rest fun n hn => h n (List.mem_append_right _ hn)
    exact ⟨by simp only [values, hv, hv'], by simp only [readsAll, hr, hr']⟩

end

mutual

theorem mem_handles_of_mem_gets {n : NodeId} : ∀ e : LinkedExpr, n ∈ e.gets → .node n ∈ e.handles
  | .get m, h => by simpa [gets, handles] using h
  | .add es, h | .mul es, h | .concat es, h | .list es, h | .seq es, h =>
    mem_handlesAll_of_mem_getsAll es h
  | .less a b, h | .provide _ a b, h => by
    rcases List.mem_append.1 h with h | h
    · exact List.mem_append_left _ (mem_handles_of_mem_gets a h)
    · exact List.mem_append_right _ (mem_handles_of_mem_gets b h)
  | .cond t a b, h => by
    rcases List.mem_append.1 h with h | h
    · rcases List.mem_append.1 h with h | h
      · exact List.mem_append_left _ (List.mem_append_left _ (mem_handles_of_mem_gets t h))
      · exact List.mem_append_left _ (List.mem_append_right _ (mem_handles_of_mem_gets a h))
    · exact List.mem_append_right _ (mem_handles_of_mem_gets b h)
  | .untrack e, h | .log e, h => mem_handles_of_mem_gets e h
  | .set _ e, h | .render _ e, h => List.mem_cons_of_mem _ (mem_handles_of_mem_gets e h)

theorem mem_handlesAll_of_mem_getsAll {n : NodeId} :
    ∀ es : List LinkedExpr, n ∈ getsAll es → .node n ∈ handlesAll es
  | [], h => by cases h
  | e :: rest, h => by
    rcases List.mem_append.1 h with h | h
    · exact List.mem_append_left _ (mem_handles_of_mem_gets e h)
    · exact List.mem_append_right _ (mem_handlesAll_of_mem_getsAll rest h)

end

end

mutual

theorem viewless_of_onlyReads : ∀ e : LinkedExpr, e.onlyReads = true → e.viewless = true
  | .literal _, _ | .props, _ | .current, _ | .member _, _ | .get _, _ => rfl
  | .add es, h | .mul es, h | .concat es, h | .list es, h | .seq es, h =>
    viewlessAll_of_onlyReadsAll es h
  | .less a b, h => by
    rw [onlyReads, Bool.and_eq_true] at h
    rw [viewless, viewless_of_onlyReads a h.1, viewless_of_onlyReads b h.2, Bool.and_self]
  | .cond t a b, h => by
    rw [onlyReads, Bool.and_eq_true, Bool.and_eq_true] at h
    rw [viewless, viewless_of_onlyReads t h.1.1, viewless_of_onlyReads a h.1.2,
      viewless_of_onlyReads b h.2, Bool.and_self, Bool.and_self]
  | .log e, h => viewless_of_onlyReads e h

theorem viewlessAll_of_onlyReadsAll :
    ∀ es : List LinkedExpr, onlyReadsAll es = true → viewlessAll es = true
  | [], _ => rfl
  | e :: rest, h => by
    rw [onlyReadsAll, Bool.and_eq_true] at h
    rw [viewlessAll, viewless_of_onlyReads e h.1, viewlessAll_of_onlyReadsAll rest h.2,
      Bool.and_self]

end

end HotSwap.Expr
