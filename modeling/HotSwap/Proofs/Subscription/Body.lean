import Mathlib.Data.Prod.Lex
import HotSwap.Proofs.Evaluation.Reading
/-!
# Bodies that write nothing

Bodies that change no signal and neither end nor let go of anything. Memos over values keep away
from views and read older sources; templates read sources and make views; effects may also look
into views. So whatever computes stands higher than what it reads, and none can come to read itself.
(A memo that looked into a view could, once a cell below holds a component that reads the memo.)
-/

namespace HotSwap

abbrev Rank := Nat ×ₗ Nat

namespace Rank

/-- Signals, cells and memos over values stand by their age. -/
def source (n : NodeId) : Rank := toLex (0, n)

/-- The nodes of views stand above all of these. -/
def view : Rank := toLex (1, 0)

def effect : Rank := toLex (2, 0)

theorem source_lt_source {n k : NodeId} : source n < source k ↔ n < k := by
  simp [source, Prod.Lex.toLex_lt_toLex]

theorem source_lt_view (n : NodeId) : source n < view := by
  simp [source, view, Prod.Lex.toLex_lt_toLex]

theorem view_lt_effect : view < effect := by simp [view, effect, Prod.Lex.toLex_lt_toLex]

end Rank

namespace Expr

mutual

/-- A body that writes, ends and lets go of nothing. All that it reads is in `G`, and views it uses
only if `V`. -/
def Tame (G : NodeId → Prop) (V : Prop) : LinkedExpr → Prop
  | .get n => G n
  | .untrack e | .log e => e.Tame G V
  | .add es | .mul es | .concat es | .list es | .seq es => TameAll G V es
  | .less a b | .provide _ a b => a.Tame G V ∧ b.Tame G V
  | .cond t a b => t.Tame G V ∧ a.Tame G V ∧ b.Tame G V
  | .text _ => V
  | .render _ e => V ∧ e.Tame G V
  | .set _ _ | .dispose _ | .release _ => False
  | .literal _ | .props | .current | .member _ | .peek _ | .use _ | .tracking => True

def TameAll (G : NodeId → Prop) (V : Prop) : List LinkedExpr → Prop
  | [] => True
  | e :: rest => e.Tame G V ∧ TameAll G V rest

end

end Expr

namespace Template

mutual

/-- A template whose bodies keep away from views. -/
def Tame (G : NodeId → Prop) : LinkedTemplate → Prop
  | .empty | .use _ => True
  | .text e | .child _ e => e.Tame G False
  | .fragment ts => TameAll G ts
  | .dynamic _ body => body.Tame G
  | .provide _ v body => v.Tame G False ∧ body.Tame G
  | .cond t a b => t.Tame G False ∧ a.Tame G ∧ b.Tame G

def TameAll (G : NodeId → Prop) : List LinkedTemplate → Prop
  | [] => True
  | t :: rest => t.Tame G ∧ TameAll G rest

end

end Template

section Mono

variable {G G' : NodeId → Prop} {V : Prop}

mutual

theorem Expr.Tame.mono (hG : ∀ y, G y → G' y) : ∀ {e : LinkedExpr}, e.Tame G V → e.Tame G' V
  | .get n, h => hG n h
  | .untrack e, h | .log e, h => Expr.Tame.mono (e := e) hG h
  | .add _, h | .mul _, h | .concat _, h | .list _, h | .seq _, h => Expr.TameAll.mono hG h
  | .less _ _, h | .provide _ _ _, h => ⟨h.1.mono hG, h.2.mono hG⟩
  | .cond _ _ _, h => ⟨h.1.mono hG, h.2.1.mono hG, h.2.2.mono hG⟩
  | .text _, h => h
  | .render _ _, h => ⟨h.1, h.2.mono hG⟩
  | .literal _, _ | .props, _ | .current, _ | .member _, _ | .peek _, _ | .use _, _
  | .tracking, _ => trivial

theorem Expr.TameAll.mono (hG : ∀ y, G y → G' y) :
    ∀ {es : List LinkedExpr}, Expr.TameAll G V es → Expr.TameAll G' V es
  | [], _ => trivial
  | _ :: _, h => ⟨h.1.mono hG, Expr.TameAll.mono hG h.2⟩

end

mutual

theorem Template.Tame.mono (hG : ∀ y, G y → G' y) : ∀ {t : LinkedTemplate}, t.Tame G → t.Tame G'
  | .empty, _ | .use _, _ => trivial
  | .text _, h | .child _ _, h => Expr.Tame.mono hG h
  | .fragment _, h => Template.TameAll.mono hG h
  | .dynamic _ body, h => Template.Tame.mono (t := body) hG h
  | .provide _ _ _, h => ⟨h.1.mono hG, h.2.mono hG⟩
  | .cond _ _ _, h => ⟨h.1.mono hG, h.2.1.mono hG, h.2.2.mono hG⟩

theorem Template.TameAll.mono (hG : ∀ y, G y → G' y) :
    ∀ {ts : List LinkedTemplate}, Template.TameAll G ts → Template.TameAll G' ts
  | [], _ => trivial
  | _ :: _, h => ⟨h.1.mono hG, Template.TameAll.mono hG h.2⟩

end

end Mono

end HotSwap
