import HotSwap.Proofs.Edit.Rewiring
/-!
# What patching does

A patch rewires, id by id, the cells of the two registrations of that id. Cells are told apart by a
`label`: the id for which a cell was made. Two registrations of one id may share their cell, as they
do after one registry adopted the registration of the other.
-/

namespace HotSwap

open Machine

theorem OrderedMap.mem_keys {κ υ : Type} [DecidableEq κ] {m : OrderedMap κ υ} {k : κ} :
    k ∈ m.keys ↔ ∃ v, m.get? k = some v := by
  rw [← contains_iff, contains, Option.isSome_iff_exists]

theorem OrderedMap.notMem_keys {κ υ : Type} [DecidableEq κ] {m : OrderedMap κ υ} {k : κ} :
    k ∉ m.keys ↔ m.get? k = none := by
  rw [mem_keys, ← Option.isSome_iff_exists, Option.not_isSome_iff_eq_none]

theorem OrderedMap.contains_of_get? {κ υ : Type} [DecidableEq κ] {m : OrderedMap κ υ} {k : κ}
    {v : υ} (h : m.get? k = some v) : m.contains k = true := by
  rw [contains, h, Option.isSome_some]

theorem OrderedMap.get?_insert {κ υ : Type} [DecidableEq κ] (m : OrderedMap κ υ) (k l : κ) (v : υ) :
    (m.insert k v).get? l = if l = k then some v else m.get? l := by
  split
  · subst l
    exact get?_insert_self m k v
  · exact get?_insert_of_ne m ‹_› v

namespace Registration

def patched (old new : Registration) : Registration :=
  if needsSwap old new then old.adopt new else old

/-- The old cell takes the new body unless nothing changed; the new cell the old proxy. -/
def rewire (old new : Registration) : Rewiring := fun n k =>
  if n = new.cell then some old.proxy
  else if n = old.cell ∧ needsSwap old new then some new.component
  else k

variable (old new : Registration)

@[simp] theorem patched_id : (old.patched new).id = old.id := by
  unfold patched; split <;> rfl

@[simp] theorem patched_proxy : (old.patched new).proxy = old.proxy := by
  unfold patched; split <;> rfl

@[simp] theorem patched_cell : (old.patched new).cell = old.cell := by
  unfold patched; split <;> rfl

theorem rewire_new (k : Option ComponentId) : old.rewire new new.cell k = some old.proxy :=
  if_pos rfl

variable {old new}

theorem rewire_old (h : old.cell ≠ new.cell) (k : Option ComponentId) :
    old.rewire new old.cell k = if needsSwap old new then some new.component else k := by
  simp [rewire, h]

theorem rewire_of_ne {n : NodeId} (ho : n ≠ old.cell) (hn : n ≠ new.cell) (k : Option ComponentId) :
    old.rewire new n k = k := by
  simp [rewire, ho, hn]

end Registration

namespace Machine

theorem patchComponent_eq_some {old new : Registration} {report : PatchReport} {s t : Store}
    {p : Registration × PatchReport} (ho : s.Celled old) (hn : s.Celled new)
    (h : patchComponent old new report s = some (p, t)) :
    p.1 = old.patched new ∧ p.2.removed = report.removed ∧
      Store.Rewired (old.rewire new) s t := by
  unfold patchComponent at h
  split at h
  · rename_i hs
    obtain ⟨_, u, hu, h⟩ := bind_eq_some.1 h
    obtain ⟨_, v, hv, h⟩ := bind_eq_some.1 h
    cases h
    have first := redirect_rewired (r := old.adopt new) ho hu
    have second := redirect_rewired (first.celled hn) hv
    refine ⟨(if_pos hs).symm, rfl, (first.trans second).congr fun n k => ?_⟩
    by_cases hc : n = old.cell <;>
      simp [Registration.rewire, Rewiring.comp, Rewiring.point, Registration.adopt, hs, hc]
  · rename_i hs
    obtain ⟨_, v, hv, h⟩ := bind_eq_some.1 h
    cases h
    refine ⟨(if_neg hs).symm, rfl, (redirect_rewired hn hv).congr fun n k => ?_⟩
    simp [Registration.rewire, Rewiring.point, hs]

def Components.patchedAt (old new : Components) (id : String) : Option Registration :=
  match old.get? id, new.get? id with
  | some o, some n => some (o.patched n)
  | o, _ => o

def Components.rewireAt (old new : Components) (id : String) : Rewiring :=
  match old.get? id, new.get? id with
  | some o, some n => o.rewire n
  | _, _ => fun _ k => k

def Components.Labelled (label : NodeId → String) (s : Store) (m : Components) : Prop :=
  ∀ ⦃id r⦄, m.get? id = some r → s.Celled r ∧ label r.cell = id

/-- The ids that a patch gets to: it stops at the first that is gone. -/
def Components.reached (new : Components) (ids : List String) : List String :=
  ids.takeWhile fun id => new.contains id

def Components.rewireAll (label : NodeId → String) (old new : Components) (ids : List String) :
    Rewiring :=
  fun n => if label n ∈ ids then old.rewireAt new (label n) n else fun k => k

variable {label : NodeId → String} {old new : Components} {s t : Store}

theorem Components.rewireAll_known {ids : List String} {n : NodeId} {o r : Registration}
    (hid : label n ∈ ids) (ho : old.get? (label n) = some o) (hr : new.get? (label n) = some r)
    (k : Option ComponentId) : Components.rewireAll label old new ids n k = o.rewire r n k := by
  simp [rewireAll, hid, rewireAt, ho, hr]

theorem Components.rewireAll_of_notMem {ids : List String} {n : NodeId} (hid : label n ∉ ids)
    (k : Option ComponentId) : Components.rewireAll label old new ids n k = k := by
  simp [rewireAll, hid]

theorem Components.rewireAll_of_ne {ids : List String} {n : NodeId}
    (ho : ∀ o, old.get? (label n) = some o → n ≠ o.cell)
    (hn : ∀ r, new.get? (label n) = some r → n ≠ r.cell) (k : Option ComponentId) :
    Components.rewireAll label old new ids n k = k := by
  unfold rewireAll
  split
  · cases hold : old.get? (label n) with
    | none => simp [rewireAt, hold]
    | some o =>
      cases hnew : new.get? (label n) with
      | none => simp [rewireAt, hold, hnew]
      | some r => simp [rewireAt, hold, hnew, Registration.rewire_of_ne (ho o hold) (hn r hnew)]
  · rfl

theorem Components.reached_eq_self {ids : List String} (h : ∀ id ∈ ids, new.contains id) :
    new.reached ids = ids := by
  induction ids with
  | nil => rfl
  | cons id ids ih =>
    rw [List.forall_mem_cons] at h
    rw [reached, List.takeWhile_cons_of_pos h.1]
    exact congrArg _ (ih h.2)

theorem Components.Labelled.grows (h : Components.Labelled label s old) (hg : s.Grows t) :
    Components.Labelled label t old :=
  fun _ _ hr => ⟨hg.celled (h hr).1, (h hr).2⟩

structure Patched (label : NodeId → String) (old new : Components) (ids : List String) (s : Store)
    (known : Components) (t : Store) : Prop where
  keys : known.keys = old.keys
  get : ∀ id, known.get? id = if id ∈ ids then old.patchedAt new id else old.get? id
  rewired : Store.Rewired (Components.rewireAll label old new ids) s t

theorem Patched.nil : Patched label old new [] s old s where
  keys := rfl
  get id := by simp
  rewired := (Store.Steady.refl s).rewired.congr fun n k => by simp [Components.rewireAll]

theorem Patched.cons {o n : Registration} {id : String} {ids : List String} {known : Components}
    {u : Store} (ho : Components.Labelled label s old) (hn : Components.Labelled label s new)
    (hid : id ∉ ids) (hoi : old.get? id = some o) (hni : new.get? id = some n)
    (first : Store.Rewired (o.rewire n) s u)
    (rest : Patched label (old.insert id (o.patched n)) new ids u known t) :
    Patched label old new (id :: ids) s known t where
  keys := by
    rw [rest.keys, OrderedMap.keys_insert_of_mem _ _ (OrderedMap.mem_keys.2 ⟨o, hoi⟩)]
  get l := by
    rw [rest.get l]
    by_cases hl : l = id
    · subst hl
      simp [hid, Components.patchedAt, hoi, hni]
    · simp [hl, Components.patchedAt, OrderedMap.get?_insert_of_ne]
  rewired := by
    refine (first.trans rest.rewired).congr fun c k => ?_
    simp only [Components.rewireAll, Rewiring.comp, List.mem_cons]
    by_cases hc : label c = id
    · simp [hc, hid, Components.rewireAt, hoi, hni]
    · have hco : c ≠ o.cell := by rintro rfl; exact hc (ho hoi).2
      have hcn : c ≠ n.cell := by rintro rfl; exact hc (hn hni).2
      simp [hc, Registration.rewire_of_ne hco hcn, Components.rewireAt,
        OrderedMap.get?_insert_of_ne]

theorem Components.Labelled.insert {o r : Registration} {id : String}
    (h : Components.Labelled label s old) (ho : old.get? id = some o) (hr : r.cell = o.cell) :
    Components.Labelled label s (old.insert id r) := by
  intro l q hq
  rw [OrderedMap.get?_insert] at hq
  split at hq
  · cases hq
    subst l
    rw [Store.Celled, hr]
    exact h ho
  · exact h hq

theorem patchKnown_eq_some (ids : List String) (hd : ids.Nodup) {report report' : PatchReport}
    {reload : Bool} {known : Components} (hids : ids ⊆ old.keys)
    (ho : Components.Labelled label s old) (hn : Components.Labelled label s new)
    (h : patchKnown new ids old report s = some ((reload, known, report'), t)) :
    Patched label old new (new.reached ids) s known t ∧
      (reload = false → (∀ id ∈ ids, new.contains id) ∧ report'.removed = report.removed) ∧
      (reload = true → ¬ (∀ id ∈ ids, new.contains id) ∧ report'.removed ≠ []) := by
  induction ids generalizing old report s with
  | nil =>
    cases h
    exact ⟨.nil, by simp, by simp⟩
  | cons id ids ih =>
    obtain ⟨hid, hd⟩ := List.nodup_cons.1 hd
    obtain ⟨o, hoi⟩ := OrderedMap.mem_keys.1 (hids (List.mem_cons_self ..))
    rw [patchKnown, hoi] at h
    cases hni : new.get? id with
    | none =>
      rw [hni] at h
      cases h
      have hc : new.contains id = false := by rw [OrderedMap.contains, hni]; rfl
      refine ⟨by simpa [Components.reached, hc] using .nil, by simp, by simp [hc]⟩
    | some n =>
      rw [hni] at h
      obtain ⟨⟨p, report''⟩, u, hu, h⟩ := bind_eq_some.1 h
      obtain ⟨rfl, hrem, first⟩ := patchComponent_eq_some (ho hoi).1 (hn hni).1 hu
      have hc := OrderedMap.contains_of_get? hni
      have hsub : ids ⊆ (old.insert id (o.patched n)).keys := by
        rw [OrderedMap.keys_insert_of_mem _ _ (OrderedMap.mem_keys.2 ⟨o, hoi⟩)]
        exact List.Subset.trans (List.subset_cons_self ..) hids
      obtain ⟨rest, hkeep, hgone⟩ := ih hd hsub
        ((ho.grows first.toGrows).insert hoi (by simp)) (hn.grows first.toGrows) h
      refine ⟨?_, fun hf => ?_, fun ht => ?_⟩
      · rw [Components.reached, List.takeWhile_cons_of_pos (by simpa using hc)]
        exact .cons ho hn (fun hm => hid (List.takeWhile_subset _ hm)) hoi hni first rest
      · obtain ⟨hall, hr⟩ := hkeep hf
        exact ⟨by simpa [hc] using hall, hr.trans hrem⟩
      · obtain ⟨hall, hr⟩ := hgone ht
        exact ⟨by simpa [hc] using hall, hr⟩

end Machine

end HotSwap
