/-!
# Maps that keep their order

An `OrderedMap` lists its entries in the order in which their keys first came. No key is listed
twice: that is part of the type, so a lookup has one answer and a count of entries is a count of
keys.
-/

namespace HotSwap

structure OrderedMap (κ υ : Type) where
  entries : List (κ × υ)
  nodup : (entries.map Prod.fst).Nodup

namespace OrderedMap

variable {κ υ : Type}

def empty : OrderedMap κ υ := ⟨[], List.nodup_nil⟩

instance : Inhabited (OrderedMap κ υ) := ⟨empty⟩

def keys (m : OrderedMap κ υ) : List κ := m.entries.map Prod.fst

def values (m : OrderedMap κ υ) : List υ := m.entries.map Prod.snd

def size (m : OrderedMap κ υ) : Nat := m.entries.length

def isEmpty (m : OrderedMap κ υ) : Bool := m.entries.isEmpty

theorem ext {m n : OrderedMap κ υ} (h : m.entries = n.entries) : m = n := by
  cases m; cases n; cases h; rfl

theorem nodup_keys (m : OrderedMap κ υ) : m.keys.Nodup := m.nodup

variable [DecidableEq κ]

instance [DecidableEq υ] : DecidableEq (OrderedMap κ υ) := fun m n =>
  decidable_of_iff (m.entries = n.entries) ⟨ext, congrArg entries⟩

def find? (k : κ) : List (κ × υ) → Option υ
  | [] => none
  | (l, v) :: rest => if l = k then some v else find? k rest

/-- Replaces the value under `k` where it stands, or appends the pair. -/
def put (k : κ) (v : υ) : List (κ × υ) → List (κ × υ)
  | [] => [(k, v)]
  | (l, w) :: rest => if l = k then (l, v) :: rest else (l, w) :: put k v rest

theorem mem_keys_put (k : κ) (v : υ) (x : κ) (es : List (κ × υ)) :
    x ∈ (put k v es).map Prod.fst ↔ x = k ∨ x ∈ es.map Prod.fst := by
  induction es with
  | nil => simp [put]
  | cons e rest ih =>
    obtain ⟨l, w⟩ := e
    by_cases h : l = k
    · simp [put, h]
    · simp only [put, h, if_false, List.map_cons, List.mem_cons, ih]
      grind

theorem nodup_put (k : κ) (v : υ) {es : List (κ × υ)} (h : (es.map Prod.fst).Nodup) :
    ((put k v es).map Prod.fst).Nodup := by
  induction es with
  | nil => simp [put]
  | cons e rest ih =>
    obtain ⟨l, w⟩ := e
    simp only [List.map_cons, List.nodup_cons] at h
    by_cases hl : l = k
    · rw [put, if_pos hl]
      exact List.nodup_cons.2 h
    · rw [put, if_neg hl]
      exact List.nodup_cons.2 ⟨fun hm => ((mem_keys_put k v l rest).1 hm).elim hl h.1, ih h.2⟩

def get? (m : OrderedMap κ υ) (k : κ) : Option υ := find? k m.entries

def contains (m : OrderedMap κ υ) (k : κ) : Bool := (m.get? k).isSome

def insert (m : OrderedMap κ υ) (k : κ) (v : υ) : OrderedMap κ υ :=
  ⟨put k v m.entries, nodup_put k v m.nodup⟩

def erase (m : OrderedMap κ υ) (k : κ) : OrderedMap κ υ :=
  ⟨m.entries.filter (fun e => decide (e.1 ≠ k)),
    m.nodup.sublist ((List.filter_sublist).map Prod.fst)⟩

def keep (f : υ → Option υ) : List (κ × υ) → List (κ × υ)
  | [] => []
  | (k, v) :: rest =>
    match f v with
    | some w => (k, w) :: keep f rest
    | none => keep f rest

omit [DecidableEq κ] in
theorem keys_keep_sublist (f : υ → Option υ) (es : List (κ × υ)) :
    ((keep f es).map Prod.fst).Sublist (es.map Prod.fst) := by
  induction es with
  | nil => exact .slnil
  | cons e rest ih =>
    obtain ⟨k, v⟩ := e
    cases h : f v with
    | some w => simpa [keep, h] using ih
    | none => simpa [keep, h] using ih.cons k

def restrict (f : υ → Option υ) (m : OrderedMap κ υ) : OrderedMap κ υ :=
  ⟨keep f m.entries, m.nodup.sublist (keys_keep_sublist f m.entries)⟩

def ofList (es : List (κ × υ)) : OrderedMap κ υ :=
  es.foldl (fun m e => m.insert e.1 e.2) empty

def sameEntries [DecidableEq υ] (m n : OrderedMap κ υ) : Bool :=
  m.size == n.size && m.entries.all fun e => n.get? e.1 = some e.2

def label? (m : OrderedMap κ υ) (p : υ → Bool) : Option κ :=
  (m.entries.find? fun e => p e.2).map Prod.fst

theorem find?_put_self (k : κ) (v : υ) (es : List (κ × υ)) : find? k (put k v es) = some v := by
  induction es with
  | nil => simp [put, find?]
  | cons e rest ih =>
    obtain ⟨l, w⟩ := e
    by_cases h : l = k <;> simp [put, find?, h, ih]

theorem find?_put_of_ne {k l : κ} (h : l ≠ k) (v : υ) (es : List (κ × υ)) :
    find? l (put k v es) = find? l es := by
  induction es with
  | nil => simp [put, find?, Ne.symm h]
  | cons e rest ih =>
    obtain ⟨m, w⟩ := e
    by_cases hm : m = k
    · subst hm; simp [put, find?, Ne.symm h]
    · by_cases hl : m = l
      · subst hl; simp [put, find?, hm]
      · simp [put, find?, hm, hl, ih]

@[simp] theorem get?_empty (k : κ) : (empty : OrderedMap κ υ).get? k = none := rfl

@[simp] theorem get?_insert_self (m : OrderedMap κ υ) (k : κ) (v : υ) :
    (m.insert k v).get? k = some v := find?_put_self k v m.entries

theorem get?_insert_of_ne (m : OrderedMap κ υ) {k l : κ} (h : l ≠ k) (v : υ) :
    (m.insert k v).get? l = m.get? l := find?_put_of_ne h v m.entries

theorem find?_isSome_iff (k : κ) (es : List (κ × υ)) :
    (find? k es).isSome ↔ k ∈ es.map Prod.fst := by
  induction es with
  | nil => simp [find?]
  | cons e rest ih =>
    obtain ⟨l, w⟩ := e
    by_cases h : l = k
    · simp [find?, h]
    · simp only [find?, h, if_false, ih, List.map_cons, List.mem_cons]
      grind

theorem contains_iff (m : OrderedMap κ υ) (k : κ) : m.contains k ↔ k ∈ m.keys :=
  find?_isSome_iff k m.entries

theorem keys_put_of_mem {k : κ} (v : υ) {es : List (κ × υ)} (h : k ∈ es.map Prod.fst) :
    (put k v es).map Prod.fst = es.map Prod.fst := by
  induction es with
  | nil => simp at h
  | cons e rest ih =>
    obtain ⟨l, w⟩ := e
    by_cases hl : l = k
    · simp [put, hl]
    · have : k ∈ rest.map Prod.fst := by
        simpa [Ne.symm hl] using h
      simp [put, hl, ih this]

theorem put_of_notMem {k : κ} (v : υ) {es : List (κ × υ)} (h : k ∉ es.map Prod.fst) :
    put k v es = es ++ [(k, v)] := by
  induction es with
  | nil => rfl
  | cons e rest ih =>
    obtain ⟨l, w⟩ := e
    simp only [List.map_cons, List.mem_cons, not_or] at h
    simp [put, Ne.symm h.1, ih h.2]

theorem keys_insert_of_mem (m : OrderedMap κ υ) {k : κ} (v : υ) (h : k ∈ m.keys) :
    (m.insert k v).keys = m.keys := keys_put_of_mem v h

theorem entries_insert_of_notMem (m : OrderedMap κ υ) {k : κ} (v : υ) (h : k ∉ m.keys) :
    (m.insert k v).entries = m.entries ++ [(k, v)] := put_of_notMem v h

end OrderedMap

end HotSwap
