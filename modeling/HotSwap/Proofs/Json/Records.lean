import HotSwap.Proofs.Json.Spelling
/-!
# Lists and records in JSON text

A loop reads items up to a character that ends them. It has fuel for as many turns as there are
characters, and each turn takes one at least.
-/

namespace HotSwap.Json

open Reader

variable {α β σ : Type} {stop c : Char} {cs ds : List Char} {a : α} {b : β}

/-- With enough fuel the loop reads `cs` up to the end mark, which stays. Where the text breaks off
before that, it says so. -/
structure Loops (stop : Char) (read : Nat → Reader α) (cs : List Char) (a : α) : Prop where
  whole : ∀ n rest, cs.length ≤ n → read (n + 1) (cs ++ stop :: rest) = .ok (a, stop :: rest)
  broken : ∀ n p, p <+: cs → p.length ≤ n → read (n + 1) p = .error .unfinished

namespace Loops

variable {read body : Nat → Reader α} {r : Reader β}

theorem stops (h : ∀ n rest, read (n + 1) (stop :: rest) = .ok (a, stop :: rest))
    (hnil : ∀ n, read (n + 1) [] = .error .unfinished) : Loops stop read [] a where
  whole n rest _ := h n rest
  broken n p hp _ := by
    obtain rfl := List.prefix_nil.1 hp
    exact hnil n

theorem first (h : Loops stop body (c :: cs) a)
    (hc : ∀ n rest, read (n + 1) (c :: rest) = body (n + 1) (c :: rest))
    (hnil : ∀ n, read (n + 1) [] = .error .unfinished) : Loops stop read (c :: cs) a where
  whole n rest hn := (hc n _).trans (h.whole n rest hn)
  broken n p hp hn := by
    obtain _ | ⟨d, p⟩ := p
    · exact hnil n
    · obtain ⟨rfl, -⟩ := List.cons_prefix_cons.1 hp
      exact (hc n p).trans (h.broken n _ hp hn)

theorem later (h : Loops stop body (c :: cs) a)
    (hc : ∀ n rest, read (n + 1) (',' :: c :: rest) = body (n + 1) (c :: rest))
    (hnil : ∀ n, read (n + 1) [] = .error .unfinished)
    (hcomma : ∀ n, read (n + 1) [','] = .error .unfinished) :
    Loops stop read (',' :: c :: cs) a where
  whole n rest hn := (hc n _).trans (h.whole n rest (Nat.le_of_succ_le hn))
  broken n p hp hn := by
    obtain _ | ⟨d, _ | ⟨d', p⟩⟩ := p
    · exact hnil n
    · obtain ⟨rfl, -⟩ := List.cons_prefix_cons.1 hp
      exact hcomma n
    · obtain ⟨rfl, hp'⟩ := List.cons_prefix_cons.1 hp
      obtain ⟨rfl, -⟩ := List.cons_prefix_cons.1 hp'
      exact (hc n p).trans (h.broken n _ hp' (Nat.le_of_succ_le hn))

theorem bind (next : β → Nat → Reader α) (h : Spells r cs b) (hcs : cs ≠ [])
    (h' : Loops stop (next b) ds a) :
    Loops stop (fun n => r >>= fun b => next b (n - 1)) (cs ++ ds) a := by
  have hpos : 0 < cs.length := List.length_pos_iff.2 hcs
  refine ⟨fun n rest hn => ?_, fun n p hp hn => ?_⟩
  · rw [List.length_append] at hn
    obtain ⟨k, rfl⟩ : ∃ k, n = k + 1 := ⟨n - 1, by omega⟩
    change (r (cs ++ ds ++ stop :: rest) >>= fun q => next q.1 (k + 1) q.2) = _
    rw [List.append_assoc, h.whole, pure_bind]
    exact h'.whole k rest (by omega)
  · change (r p >>= fun q => next q.1 n q.2) = _
    rcases prefix_append_cases hp with ⟨hp, hne⟩ | ⟨q, rfl, hq⟩
    · rw [h.broken p hp hne]
      rfl
    · rw [List.length_append] at hn
      obtain ⟨k, rfl⟩ : ∃ k, n = k + 1 := ⟨n - 1, by omega⟩
      rw [h.whole, pure_bind]
      exact h'.broken k q hq (by omega)

theorem map (h : Loops stop body cs a) (g : α → β) :
    Loops stop (fun n => body n >>= fun a => pure (g a)) cs (g a) where
  whole n rest hn := by
    change (body (n + 1) (cs ++ stop :: rest) >>= fun q => pure (g q.1, q.2)) = _
    rw [h.whole n rest hn]
    rfl
  broken n p hp hn := by
    change (body (n + 1) p >>= fun q => pure (g q.1, q.2)) = _
    rw [h.broken n p hp hn]
    rfl

theorem fuelled {f : α → Reader β} (h : Loops stop read cs a) (h' : Spells (f a) (stop :: ds) b) :
    Spells (Reader.fuelled read >>= f) (cs ++ stop :: ds) b where
  whole rest := by
    change (read ((cs ++ stop :: ds ++ rest).length + 1) (cs ++ stop :: ds ++ rest) >>=
      fun q => f q.1 q.2) = _
    rw [List.append_assoc, List.cons_append, h.whole _ _ (by simp)]
    exact h'.whole rest
  broken p hp hne := by
    change (read (p.length + 1) p >>= fun q => f q.1 q.2) = _
    rcases prefix_append_cases hp with ⟨hp, -⟩ | ⟨q, rfl, hq⟩
    · rw [h.broken _ p hp (Nat.le_refl _)]
      rfl
    · obtain _ | ⟨d, q⟩ := q
      · rw [List.append_nil, h.broken _ cs (List.prefix_refl cs) (Nat.le_refl _)]
        rfl
      · obtain ⟨rfl, -⟩ := List.cons_prefix_cons.1 hq
        rw [h.whole _ q (by simp)]
        exact h'.broken _ hq fun e => hne (e ▸ rfl)

end Loops

/-- A text that a loop up to `stop` takes for one more item. -/
def Starts (stop : Char) (cs : List Char) : Prop :=
  ∃ c rest, cs = c :: rest ∧ isBlank c = false ∧ c ≠ stop

def continued (texts : List (List Char)) : List Char := texts.flatMap fun cs => ',' :: cs

theorem separated_cons (cs : List Char) (texts : List (List Char)) :
    separated (cs :: texts) = cs ++ continued texts := by
  induction texts generalizing cs with
  | nil => simp [separated, continued]
  | cons ds texts ih => rw [separated, ih, continued, continued, List.flatMap_cons]; rfl

theorem moreItems_first (hc : isBlank c = false) (hstop : c ≠ ']') (k : Bool → Reader α)
    (rest : List Char) : (moreItems true >>= k) (c :: rest) = k true (c :: rest) := by
  simp only [moreItems, bind_assoc, peek_bind hc, hstop, if_false, if_true, pure_bind]

theorem moreItems_later (hc : isBlank c = false) (hstop : c ≠ ']') (k : Bool → Reader α)
    (rest : List Char) : (moreItems false >>= k) (',' :: c :: rest) = k true (c :: rest) := by
  have hmore : moreItems false (',' :: c :: rest) = .ok (true, c :: rest) := by
    have hnot : ¬(',' = ']') := by decide
    rw [moreItems, peek_bind rfl]
    simp only [hnot, Bool.false_eq_true, if_false, if_true]
    rw [advance_bind, peek_bind hc]
    simp only [hstop, if_false]
    rfl
  change (moreItems false (',' :: c :: rest) >>= fun q => k q.1 q.2) = _
  rw [hmore]
  rfl

variable {item : Reader α} {write : α → List Char}

theorem loops_item {x : α} {xs : List α} (hx : Spells item (write x) x) (hs : Starts ']' (write x))
    (h : Loops ']' (fun n => items item n false) cs xs) :
    Loops ']' (fun n => item >>= fun x => items item (n - 1) false >>= fun xs => pure (x :: xs))
      (write x ++ cs) (x :: xs) := by
  have hne : write x ≠ [] := by
    obtain ⟨c, rest, hw, -⟩ := hs
    rw [hw]
    exact List.cons_ne_nil c rest
  exact Loops.bind (fun x n => items item n false >>= fun xs => pure (x :: xs)) hx hne
    (h.map (x :: ·))

theorem loops_continued {xs : List α} (h : ∀ x ∈ xs, Spells item (write x) x)
    (hs : ∀ x ∈ xs, Starts ']' (write x)) :
    Loops ']' (fun n => items item n false) (continued (xs.map write)) xs := by
  induction xs with
  | nil => exact .stops (fun _ _ => rfl) fun _ => rfl
  | cons x xs ih =>
    rw [List.forall_mem_cons] at h hs
    have hitem := loops_item h.1 hs.1 (ih h.2 hs.2)
    obtain ⟨c, rest, hw, hc, hstop⟩ := hs.1
    rw [List.map_cons, continued, List.flatMap_cons, ← continued]
    rw [hw] at hitem ⊢
    exact hitem.later (fun _ _ => moreItems_later hc hstop _ _) (fun _ => rfl) fun _ => rfl

theorem loops_items {xs : List α} (h : ∀ x ∈ xs, Spells item (write x) x)
    (hs : ∀ x ∈ xs, Starts ']' (write x)) :
    Loops ']' (fun n => items item n true) (separated (xs.map write)) xs := by
  cases xs with
  | nil => exact .stops (fun _ _ => rfl) fun _ => rfl
  | cons x xs =>
    rw [List.forall_mem_cons] at h hs
    have hitem := loops_item h.1 hs.1 (loops_continued h.2 hs.2)
    obtain ⟨c, rest, hw, hc, hstop⟩ := hs.1
    rw [List.map_cons, separated_cons]
    rw [hw] at hitem ⊢
    exact hitem.first (fun _ _ => moreItems_first hc hstop _ _) fun _ => rfl

theorem spells_closeArray : Spells closeArray [']'] () :=
  spells_peek rfl (.pure ()) (fun _ => rfl) rfl

theorem spells_list {xs : List α} (h : ∀ x ∈ xs, Spells item (write x) x)
    (hs : ∀ x ∈ xs, Starts ']' (write x)) :
    Spells (list item) (bracketed (xs.map write)) xs :=
  have htail := (loops_items h hs).fuelled (f := fun xs => closeArray >>= fun _ => pure xs)
    (spells_closeArray.map _)
  spells_peek rfl htail (fun _ => rfl) rfl

/-- These members, one after the other, take a record from one state to another. -/
inductive Fills (member : σ → Reader σ) : List (List Char) → σ → σ → Prop
  | nil (s : σ) : Fills member [] s s
  | cons {cs : List Char} {fields : List (List Char)} {s t u : σ} :
    Spells (member s) ('"' :: cs) t → Fills member fields t u →
      Fills member (('"' :: cs) :: fields) s u

variable {member : σ → Reader σ} {fields fields' : List (List Char)} {s t u : σ}

theorem Fills.append (h : Fills member fields s t) (h' : Fills member fields' t u) :
    Fills member (fields ++ fields') s u := by
  induction h with
  | nil => exact h'
  | cons hm _ ih => exact .cons hm (ih h')

theorem loops_member (h : Spells (member s) ('"' :: cs) t)
    (h' : Loops '}' (fun n => members member n false t) ds u) :
    Loops '}' (fun n => member s >>= fun t => members member (n - 1) false t)
      ('"' :: (cs ++ ds)) u :=
  Loops.bind (fun t n => members member n false t) h (List.cons_ne_nil _ _) h'

theorem loops_rest (h : Fills member fields s t) :
    Loops '}' (fun n => members member n false s) (continued fields) t := by
  induction h with
  | nil => exact .stops (fun _ _ => rfl) fun _ => rfl
  | cons hm _ ih =>
    exact (loops_member hm ih).later (fun _ _ => rfl) (fun _ => rfl) fun _ => rfl

theorem loops_members (h : Fills member fields s t) :
    Loops '}' (fun n => members member n true s) (separated fields) t := by
  cases h with
  | nil => exact .stops (fun _ _ => rfl) fun _ => rfl
  | cons hm h =>
    rw [separated_cons]
    exact (loops_member hm (loops_rest h)).first (fun _ _ => rfl) fun _ => rfl

theorem spells_closeObject : Spells closeObject ['}'] () :=
  spells_peek rfl (.pure ()) (fun _ => rfl) rfl

theorem spells_object (expected : String) (h : Fills member fields s t) :
    Spells (Reader.object expected s member) (braced fields) t :=
  have htail := (loops_members h).fuelled (f := fun s => closeObject >>= fun _ => pure s)
    (spells_closeObject.map _)
  spells_peek rfl htail (fun _ => rfl) rfl

theorem spells_record (name : String) {member : String → σ → Reader σ} {finish : σ → Reader α}
    {positional : Reader α}
    (h : Fills (fun s => Reader.string >>= fun key => member key s) fields s t)
    (hf : finish t = pure a) :
    Spells (record name s member finish positional) (braced fields) a := by
  have hclose : Spells (finish t >>= fun a => closeObject >>= fun _ => pure a) ['}'] a := by
    rw [hf, pure_bind]
    exact spells_closeObject.map _
  have htail := (loops_members h).fuelled
    (f := fun s => finish s >>= fun a => closeObject >>= fun _ => pure a) hclose
  exact spells_peek rfl htail (fun _ => rfl) rfl

theorem starts_quoted (s : String) : Starts ']' (quoted s) := ⟨'"', _, rfl, rfl, by decide⟩

theorem starts_braced (fields : List (List Char)) : Starts ']' (braced fields) :=
  ⟨'{', _, rfl, rfl, by decide⟩

theorem spells_strings (ss : List String) : Spells (list Reader.string) (strings ss) ss :=
  spells_list (fun s _ => spells_stringAs "a string" s) fun s _ => starts_quoted s

theorem spells_colon : Spells colon [':'] () := spells_peek rfl (.pure ()) (fun _ => rfl) rfl

theorem spells_once {read : Reader α} (key : String) (h : Spells read cs a) :
    Spells (once key none read) (':' :: cs) a := spells_colon.bind h

theorem Fills.more {member : String → σ → Reader σ} {key : String} {value : List Char}
    (h : Spells (member key s) (':' :: value) t)
    (h' : Fills (fun s => Reader.string >>= fun key => member key s) fields t u) :
    Fills (fun s => Reader.string >>= fun key => member key s) (field key value :: fields) s u :=
  .cons ((spells_stringAs "a string" key).bind h) h'

theorem Fills.field {member : String → σ → Reader σ} {key : String} {value : List Char}
    (h : Spells (member key s) (':' :: value) t) :
    Fills (fun s => Reader.string >>= fun key => member key s) [field key value] s t :=
  .more h (.nil t)

end HotSwap.Json
