import HotSwap.Proofs.Flatten.Unfolding
/-!
# Text by parts

The text of a view may be put together from the texts of its parts, each of which is resolved once
more. What is resolved has no nodes left, so that reads nothing again and comes to the same text.
-/

namespace HotSwap

open Machine

mutual

def View.depth : View → Nat
  | .empty | .text _ | .dynamic _ => 0
  | .fragment children => View.depthAll children + 1

def View.depthAll : List View → Nat
  | [] => 0
  | v :: rest => max v.depth (View.depthAll rest)

end

mutual

def View.leaves : View → List String
  | .empty | .dynamic _ => []
  | .text x => [x]
  | .fragment children => View.leavesAll children

def View.leavesAll : List View → List String
  | [] => []
  | v :: rest => v.leaves ++ View.leavesAll rest

end

/-- Resolves a view, and then each part of what came out. -/
def Machine.textByParts (c : Calls) : Nat → View → Machine String
  | 0, _ => exhausted
  | fuel + 1, v => do
    match ← c.resolve v with
    | .empty | .dynamic _ => return ""
    | .text x => return x
    | .fragment children => return String.join (← children.mapM (textByParts c fuel))

theorem View.depth_le_of_mem {v : View} {vs : List View} (h : v ∈ vs) :
    v.depth ≤ View.depthAll vs := by
  induction vs with
  | nil => cases h
  | cons w vs ih =>
    obtain rfl | h := List.mem_cons.1 h
    · exact Nat.le_max_left _ _
    · exact Nat.le_trans (ih h) (Nat.le_max_right _ _)

theorem View.nodes_of_mem {v : View} {vs : List View} (hvs : View.nodesAll vs = []) (h : v ∈ vs) :
    v.nodes = [] := by
  induction vs with
  | nil => cases h
  | cons w vs ih =>
    obtain ⟨hw, hvs⟩ := List.append_eq_nil_iff.1 hvs
    obtain rfl | h := List.mem_cons.1 h
    · exact hw
    · exact ih hvs h

mutual

theorem View.join_leaves : ∀ v : View, String.join v.leaves = v.flatText
  | .empty | .dynamic _ => rfl
  | .text x => by simp [View.leaves, View.flatText, String.join]
  | .fragment children => View.join_leavesAll children

theorem View.join_leavesAll :
    ∀ vs : List View, String.join (View.leavesAll vs) = View.flatTextAll vs
  | [] => rfl
  | v :: rest => by
    rw [View.leavesAll, View.flatTextAll, String.join_append, View.join_leaves v,
      View.join_leavesAll rest]

end

theorem View.flatTextAll_eq_join (vs : List View) :
    View.flatTextAll vs = String.join (vs.map View.flatText) := by
  induction vs with
  | nil => rfl
  | cons v vs ih => rw [View.flatTextAll, ih, List.map_cons, String.join_cons]

namespace Machine

variable {c : Calls} {s t : Store} {v w : View}

theorem mapM_of_forall {f : View → Machine String} {vs : List View}
    (h : ∀ v ∈ vs, f v s = some (v.flatText, s)) :
    vs.mapM f s = some (vs.map View.flatText, s) := by
  induction vs with
  | nil => rfl
  | cons v vs ih =>
    obtain ⟨hv, hvs⟩ := List.forall_mem_cons.1 h
    simp [List.mapM_cons, hv, ih hvs]

theorem textByParts_of_nodeless
    (hc : ∀ (v : View) (s : Store), v.nodes = [] → c.resolve v s = some (v, s)) {fuel : Nat}
    (hv : v.nodes = []) (hd : v.depth < fuel) :
    textByParts c fuel v s = some (v.flatText, s) := by
  induction fuel generalizing v with
  | zero => cases hd
  | succ fuel ih =>
    rw [textByParts, bind_apply, hc v s hv]
    cases v with
    | empty | text | dynamic => rfl
    | fragment children =>
      have hchildren : children.mapM (textByParts c fuel) s =
          some (children.map View.flatText, s) := by
        refine mapM_of_forall fun w hw => ih (View.nodes_of_mem hv hw) ?_
        exact Nat.lt_of_le_of_lt (View.depth_le_of_mem hw) (Nat.lt_of_succ_lt_succ hd)
      simp [hchildren, View.flatText, View.flatTextAll_eq_join]

/-- Only the first pass over a view reads. -/
theorem textByParts_of_resolve
    (hc : ∀ (v : View) (s : Store), v.nodes = [] → c.resolve v s = some (v, s)) {fuel : Nat}
    (h : c.resolve v s = some (w, t)) (hw : w.nodes = []) (hd : w.depth < fuel) :
    textByParts c fuel v s = some (w.flatText, t) := by
  -- On `w` itself the parts come to the same, as its first pass changes nothing.
  have hparts := textByParts_of_nodeless (s := t) hc hw hd
  obtain ⟨fuel, rfl⟩ : ∃ k, fuel = k + 1 := ⟨fuel - 1, by omega⟩
  rw [textByParts, bind_apply, hc w t hw] at hparts
  rw [textByParts, bind_apply, h]
  exact hparts

theorem calls_resolve_of_nodeless (e : Nat) (v : View) (s : Store) (hv : v.nodes = []) :
    (calls (e + 1)).resolve v s = some (v, s) := resolveView_of_nodeless (calls e) s hv

end Machine

end HotSwap
