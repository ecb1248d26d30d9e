import HotSwap.Store.Lifetime
/-!
# Moving a store

`m.Within R m'` says of two computations that `m'` answers whatever `m` answers, and that the store
moves along `R` on the way. With `m` on both sides it says what `m` does to a store; with the trivial
`R` it compares two answers. Composite computations are within `R` if their parts are and `R` is a
preorder.
-/

namespace HotSwap.Machine

@[simp] theorem pure_apply (a : α) (s : Store) : (pure a : Machine α) s = some (a, s) := rfl

@[simp] theorem bind_apply (m : Machine α) (f : α → Machine β) (s : Store) :
    (m >>= f) s = (m s).bind fun p => f p.1 p.2 := by
  change (StateT.bind m f) s = _
  simp only [StateT.bind]
  cases m s <;> rfl

@[simp] theorem map_apply (g : α → β) (m : Machine α) (s : Store) :
    (g <$> m) s = (m s).map fun p => (g p.1, p.2) := by
  change (StateT.map g m) s = _
  simp only [StateT.map]
  cases m s <;> rfl

@[simp] theorem get_apply (s : Store) : (get : Machine Store) s = some (s, s) := rfl

@[simp] theorem modify_apply (f : Store → Store) (s : Store) :
    (modify f : Machine Unit) s = some ((), f s) := rfl

@[simp] theorem exhausted_apply (s : Store) : (exhausted : Machine α) s = none := rfl

/-- Whatever `m` answers from `s`, `m'` answers too, and the store moves along `R`. -/
def WithinAt (R : Store → Store → Prop) (s : Store) (m m' : Machine α) : Prop :=
  ∀ ⦃a t⦄, m s = some (a, t) → m' s = some (a, t) ∧ R s t

def Within (R : Store → Store → Prop) (m m' : Machine α) : Prop := ∀ s, WithinAt R s m m'

variable {R : Store → Store → Prop} {s t u : Store}

theorem bind_eq_some {m : Machine α} {f : α → Machine β} {b : β} :
    (m >>= f) s = some (b, u) ↔ ∃ a t, m s = some (a, t) ∧ f a t = some (b, u) := by
  simp only [bind_apply, Option.bind_eq_some_iff, Prod.exists]

theorem WithinAt.of_eq {m m' : Machine α} {a : α} (h : m s = some (a, t)) (h' : m' s = some (a, t))
    (r : R s t) : WithinAt R s m m' := by
  intro b v hb
  obtain ⟨rfl, rfl⟩ : a = b ∧ t = v := by simpa [h] using hb
  exact ⟨h', r⟩

theorem WithinAt.mono {Q : Store → Store → Prop} {m m' : Machine α} (h : WithinAt R s m m')
    (hq : ∀ t, R s t → Q s t) : WithinAt Q s m m' := by
  intro a t ha
  exact ⟨(h ha).1, hq t (h ha).2⟩

theorem WithinAt.bind (trans : ∀ ⦃s t u⦄, R s t → R t u → R s u) {m m' : Machine α}
    {f f' : α → Machine β} (hm : WithinAt R s m m')
    (hf : ∀ a t, m s = some (a, t) → WithinAt R t (f a) (f' a)) :
    WithinAt R s (m >>= f) (m' >>= f') := by
  intro b u h
  obtain ⟨a, t, ha, hb⟩ := bind_eq_some.1 h
  obtain ⟨ha', r⟩ := hm ha
  obtain ⟨hb', r'⟩ := hf a t ha hb
  exact ⟨bind_eq_some.2 ⟨a, t, ha', hb'⟩, trans r r'⟩

theorem WithinAt.bind_of_eq {m : Machine α} {f f' : α → Machine β} {a : α}
    (h : m s = some (a, s)) (hf : WithinAt R s (f a) (f' a)) :
    WithinAt R s (m >>= f) (m >>= f') := by
  intro b u hb
  obtain ⟨a', t, ha, hb⟩ := bind_eq_some.1 hb
  obtain ⟨rfl, rfl⟩ : a = a' ∧ s = t := by simpa [h] using ha
  obtain ⟨hb', r⟩ := hf hb
  exact ⟨bind_eq_some.2 ⟨a, s, h, hb'⟩, r⟩

theorem Within.bind (trans : ∀ ⦃s t u⦄, R s t → R t u → R s u) {m m' : Machine α}
    {f f' : α → Machine β} (hm : Within R m m') (hf : ∀ a, Within R (f a) (f' a)) :
    Within R (m >>= f) (m' >>= f') :=
  fun s => (hm s).bind trans fun a t _ => hf a t

theorem Within.of_pure (refl : ∀ s, R s s) (a : α) :
    Within R (pure a : Machine α) (pure a) :=
  fun s => .of_eq rfl rfl (refl s)

theorem Within.of_modify {f : Store → Store} (h : ∀ s, R s (f s)) :
    Within R (modify f : Machine Unit) (modify f) :=
  fun s => .of_eq rfl rfl (h s)

end HotSwap.Machine
