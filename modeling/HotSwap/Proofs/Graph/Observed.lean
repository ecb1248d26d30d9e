import HotSwap.Store.Basic
/-!
# What a computation has observed

The trace of a store says what each computation read, and when a run of an effect ended. `lastReads`
are the reads of the last run of an effect, `openReads` those since then. Both list the latest first.
-/

namespace HotSwap

/-- The reads of a computation since its last run ended. -/
def openReads (n : NodeId) : List Event → List (NodeId × Content)
  | [] => []
  | .effect k _ _ :: rest => if k = n then [] else openReads n rest
  | .read (some r) x v :: rest => if r = n then (x, v) :: openReads n rest else openReads n rest
  | _ :: rest => openReads n rest

/-- The reads of a computation in the last run that it ended. -/
def lastReads (n : NodeId) : List Event → List (NodeId × Content)
  | [] => []
  | .effect k _ _ :: rest => if k = n then openReads n rest else lastReads n rest
  | _ :: rest => lastReads n rest

def observed (ρ : NodeId → Json) (xs : List NodeId) : List (NodeId × Content) :=
  xs.map fun x => (x, .json (ρ x))

/-- No run ends, and whoever reads is in `p`. -/
def Event.Quiet (p : NodeId → Prop) : Event → Prop
  | .effect _ _ _ => False
  | .read (some r) _ _ => p r
  | _ => True

variable {n : NodeId} {p q : NodeId → Prop} {new trace : List Event}

theorem Event.Quiet.mono (hpq : ∀ r, p r → q r) {e : Event} (h : e.Quiet p) : e.Quiet q := by
  cases e with
  | read reader =>
    cases reader with
    | none => trivial
    | some r => exact hpq r h
  | effect => exact h
  | _ => trivial

theorem observed_append (ρ : NodeId → Json) (xs ys : List NodeId) :
    observed ρ (xs ++ ys) = observed ρ xs ++ observed ρ ys := List.map_append

theorem observed_congr {ρ ρ' : NodeId → Json} {xs : List NodeId} (h : ∀ x ∈ xs, ρ' x = ρ x) :
    observed ρ' xs = observed ρ xs := List.map_congr_left fun x hx => by rw [h x hx]

@[simp] theorem openReads_effect_self (name : String) (v : Json) :
    openReads n (.effect n name v :: trace) = [] := if_pos rfl

@[simp] theorem lastReads_effect_self (name : String) (v : Json) :
    lastReads n (.effect n name v :: trace) = openReads n trace := if_pos rfl

theorem openReads_effect_of_ne {k : NodeId} (h : k ≠ n) (name : String) (v : Json) :
    openReads n (.effect k name v :: trace) = openReads n trace := if_neg h

theorem lastReads_effect_of_ne {k : NodeId} (h : k ≠ n) (name : String) (v : Json) :
    lastReads n (.effect k name v :: trace) = lastReads n trace := if_neg h

@[simp] theorem openReads_read_self (x : NodeId) (v : Content) :
    openReads n (.read (some n) x v :: trace) = (x, v) :: openReads n trace := if_pos rfl

theorem openReads_cons {e : Event} (he : e.Quiet fun _ => False) :
    openReads n (e :: trace) = openReads n trace := by
  cases e with
  | effect => exact he.elim
  | read reader =>
    cases reader with
    | none => rfl
    | some r => exact he.elim
  | _ => rfl

theorem lastReads_cons {e : Event} (he : e.Quiet p) :
    lastReads n (e :: trace) = lastReads n trace := by
  cases e with
  | effect => exact he.elim
  | _ => rfl

theorem openReads_append (h : ∀ e ∈ new, e.Quiet p) :
    openReads n (new ++ trace) = openReads n new ++ openReads n trace := by
  induction new with
  | nil => rfl
  | cons e new ih =>
    have hnew := ih fun e he => h e (List.mem_cons_of_mem _ he)
    have he := h e List.mem_cons_self
    cases e with
    | effect => exact he.elim
    | read reader x v =>
      cases reader with
      | none => exact hnew
      | some r =>
        simp only [List.cons_append, openReads, hnew]
        split <;> rfl
    | _ => exact hnew

theorem openReads_eq_nil (h : ∀ e ∈ new, e.Quiet p) (hn : ¬p n) : openReads n new = [] := by
  induction new with
  | nil => rfl
  | cons e new ih =>
    have hnew := ih fun e he => h e (List.mem_cons_of_mem _ he)
    have he := h e List.mem_cons_self
    cases e with
    | effect => exact he.elim
    | read reader x v =>
      cases reader with
      | none => exact hnew
      | some r =>
        have hr : r ≠ n := fun hr => hn (hr ▸ he)
        simp only [openReads, if_neg hr, hnew]
    | _ => exact hnew

theorem mem_trace_of_mem_openReads {x : NodeId} {v : Content} (h : (x, v) ∈ openReads n trace) :
    .read (some n) x v ∈ trace := by
  induction trace with
  | nil => cases h
  | cons e trace ih =>
    cases e with
    | effect k =>
      simp only [openReads] at h
      split at h
      · cases h
      · exact List.mem_cons_of_mem _ (ih h)
    | read reader y w =>
      cases reader with
      | none => exact List.mem_cons_of_mem _ (ih h)
      | some r =>
        simp only [openReads] at h
        split at h
        · rename_i hr
          subst hr
          rcases List.mem_cons.1 h with h | h
          · cases h
            exact List.mem_cons_self
          · exact List.mem_cons_of_mem _ (ih h)
        · exact List.mem_cons_of_mem _ (ih h)
    | _ => exact List.mem_cons_of_mem _ (ih h)

theorem openReads_of_forall_ne (h : ∀ r x v, .read (some r) x v ∈ trace → r ≠ n) :
    openReads n trace = [] := by
  refine List.eq_nil_iff_forall_not_mem.2 fun ⟨x, v⟩ hx => ?_
  exact h n x v (mem_trace_of_mem_openReads hx) rfl

end HotSwap
