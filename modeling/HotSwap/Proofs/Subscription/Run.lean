import HotSwap.Store.Basic
/-!
# The last run of a computation

The trace says what each computation read in a frame of its own, and where its runs lie: memos that
compute a value, and effects, tell when a run ends; a node of a template tells when a run starts;
and a mounted node reads once in each run. So the reads of the last run can be read off the trace.
-/

namespace HotSwap

namespace Event

def actor : Event → Option NodeId
  | .read reader _ _ => reader
  | .memo n _ _ => some n
  | .effect n _ _ => some n
  | .node n _ => some n
  | _ => none

def sourceFor (n : NodeId) : Event → Option NodeId
  | .read (some r) x _ => if r = n then some x else none
  | _ => none

/-- Whether a run of `n` ends, if `n` tells so. -/
def closes (n : NodeId) : Event → Bool
  | .memo k _ _ => k = n
  | .effect k _ _ => k = n
  | _ => false

def opens (n : NodeId) : Event → Bool
  | .node k _ => k = n
  | _ => false

variable {n : NodeId} {e : Event}

theorem sourceFor_of_ne (h : e.actor ≠ some n) : e.sourceFor n = none := by
  cases e with
  | read reader x v =>
    cases reader with
    | none => rfl
    | some r => exact if_neg fun hr => h (congrArg some hr)
  | _ => rfl

theorem closes_of_ne (h : e.actor ≠ some n) : e.closes n = false := by
  cases e with
  | memo k => exact decide_eq_false fun hk => h (congrArg some hk)
  | effect k => exact decide_eq_false fun hk => h (congrArg some hk)
  | _ => rfl

theorem opens_of_ne (h : e.actor ≠ some n) : e.opens n = false := by
  cases e with
  | node k => exact decide_eq_false fun hk => h (congrArg some hk)
  | _ => rfl

end Event

/-- The sources that `n` reads in a frame of its own. -/
def readsOf (n : NodeId) (es : List Event) : List NodeId := es.filterMap (Event.sourceFor n)

def sinceEnd (n : NodeId) (es : List Event) : List Event := es.takeWhile fun e => !e.closes n

def untilEnd (n : NodeId) (es : List Event) : List Event :=
  sinceEnd n (es.dropWhile fun e => !e.closes n).tail

def sinceStart (n : NodeId) (es : List Event) : List Event := es.takeWhile fun e => !e.opens n

/-- The reads of the last run of a computation, in a frame of its own. -/
def lastRun (n : NodeId) (es : List Event) : Node → List NodeId
  | .memo { recipe := .value _ _, .. } => readsOf n (untilEnd n es)
  | .memo { recipe := .template _ _ _, .. } => readsOf n (sinceStart n es)
  | .memo { recipe := .mount _ _ _, .. } => (readsOf n es).take 1
  | .effect _ => readsOf n (untilEnd n es)
  | _ => []

variable {n : NodeId} {new es : List Event} {e : Event}

@[simp] theorem readsOf_append (n : NodeId) (new es : List Event) :
    readsOf n (new ++ es) = readsOf n new ++ readsOf n es := List.filterMap_append

@[simp] theorem readsOf_nil (n : NodeId) : readsOf n [] = [] := rfl

theorem readsOf_read_self (n x : NodeId) (v : Content) (es : List Event) :
    readsOf n (.read (some n) x v :: es) = x :: readsOf n es := by
  simp [readsOf, Event.sourceFor]

theorem readsOf_cons_of_ne (h : e.actor ≠ some n) (es : List Event) :
    readsOf n (e :: es) = readsOf n es := by
  rw [readsOf, List.filterMap_cons_none (Event.sourceFor_of_ne h), readsOf]

theorem readsOf_eq_nil (h : ∀ e ∈ new, e.actor ≠ some n) : readsOf n new = [] := by
  induction new with
  | nil => rfl
  | cons e new ih =>
    rw [List.forall_mem_cons] at h
    rw [readsOf_cons_of_ne h.1, ih h.2]

theorem sinceEnd_append (h : ∀ e ∈ new, e.closes n = false) (es : List Event) :
    sinceEnd n (new ++ es) = new ++ sinceEnd n es :=
  List.takeWhile_append_of_pos fun e he => by simp [h e he]

theorem untilEnd_append (h : ∀ e ∈ new, e.closes n = false) (es : List Event) :
    untilEnd n (new ++ es) = untilEnd n es := by
  rw [untilEnd, untilEnd, List.dropWhile_append_of_pos fun e he => by simp [h e he]]

theorem sinceStart_append (h : ∀ e ∈ new, e.opens n = false) (es : List Event) :
    sinceStart n (new ++ es) = new ++ sinceStart n es :=
  List.takeWhile_append_of_pos fun e he => by simp [h e he]

theorem untilEnd_cons (h : e.closes n = true) (es : List Event) :
    untilEnd n (e :: es) = sinceEnd n es := by
  simp [untilEnd, h]

theorem sinceEnd_cons (h : e.closes n = true) (es : List Event) : sinceEnd n (e :: es) = [] := by
  simp [sinceEnd, h]

theorem sinceStart_cons (h : e.opens n = true) (es : List Event) : sinceStart n (e :: es) = [] := by
  simp [sinceStart, h]

theorem lastRun_append (h : ∀ e ∈ new, e.actor ≠ some n) (es : List Event) (x : Node) :
    lastRun n (new ++ es) x = lastRun n es x := by
  unfold lastRun
  split
  · rw [untilEnd_append fun e he => Event.closes_of_ne (h e he)]
  · rw [sinceStart_append fun e he => Event.opens_of_ne (h e he), readsOf_append,
      readsOf_eq_nil h, List.nil_append]
  · rw [readsOf_append, readsOf_eq_nil h, List.nil_append]
  · rw [untilEnd_append fun e he => Event.closes_of_ne (h e he)]
  · rfl

theorem lastRun_eq_nil (h : ∀ e ∈ es, e.actor ≠ some n) (x : Node) : lastRun n es x = [] := by
  have hnil : lastRun n [] x = [] := by
    unfold lastRun
    split <;> rfl
  rw [← List.append_nil es, lastRun_append h, hnil]

end HotSwap
