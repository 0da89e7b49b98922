import Guarded.Proofs.Tree

/-!
Putting an expression in parentheses. One occurrence of an expression in a program is replaced by
the same expression in parentheses, which are a node of their own with a number that is new; nothing
else changes. Taking the parentheses with that number off again gives the program back, and all
numbers of the new program are different if those of the old one are.
-/

namespace Guarded

/-- One occurrence of an expression is put in parentheses with the node `n`. -/
inductive Expr.Wraps (n : Node) : Expr → Expr → Prop
  | here (e : Expr) : Wraps n e (.paren n e)
  | index {k : Node} {array : Ident} {i i' : Expr} (inner : Wraps n i i') :
    Wraps n (.index k array i) (.index k array i')
  | call {k : Node} {callee : Ident} {before after : List Expr} {e e' : Expr}
    (inner : Wraps n e e') :
    Wraps n (.call k callee (before ++ e :: after)) (.call k callee (before ++ e' :: after))
  | paren {k : Node} {e e' : Expr} (inner : Wraps n e e') : Wraps n (.paren k e) (.paren k e')
  | unary {k : Node} {op : UnOp} {e e' : Expr} (inner : Wraps n e e') :
    Wraps n (.unary k op e) (.unary k op e')
  | left {k : Node} {op : BinOp} {e e' rhs : Expr} (inner : Wraps n e e') :
    Wraps n (.binary k op e rhs) (.binary k op e' rhs)
  | right {k : Node} {op : BinOp} {lhs e e' : Expr} (inner : Wraps n e e') :
    Wraps n (.binary k op lhs e) (.binary k op lhs e')

inductive Target.Wraps (n : Node) : Target → Target → Prop
  | index {array : Ident} {i i' : Expr} (inner : i.Wraps n i') :
    Wraps n (.index array i) (.index array i')

/-- One occurrence of an expression in a statement is put in parentheses. -/
inductive Stmt.Wraps (n : Node) : Stmt → Stmt → Prop
  | size {k : Node} {ty : Ty} {e e' : Expr} {names : List Ident} (inner : e.Wraps n e') :
    Wraps n (.arrayDecl k ty e names) (.arrayDecl k ty e' names)
  | method {k block : Node} {name : Ident} {params : List Param} {result : Option Ty}
    {before after : List Stmt} {s s' : Stmt} (inner : Wraps n s s') :
    Wraps n (.method k name params result block (before ++ s :: after))
      (.method k name params result block (before ++ s' :: after))
  | target {k : Node} {before after : List Target} {t t' : Target} {values : List Expr}
    (inner : t.Wraps n t') :
    Wraps n (.assign k (before ++ t :: after) values) (.assign k (before ++ t' :: after) values)
  | value {k : Node} {targets : List Target} {before after : List Expr} {e e' : Expr}
    (inner : e.Wraps n e') :
    Wraps n (.assign k targets (before ++ e :: after)) (.assign k targets (before ++ e' :: after))
  | print {k : Node} {e e' : Expr} (inner : e.Wraps n e') : Wraps n (.print k e) (.print k e')
  | choiceTest {k g : Node} {before after : List Guard} {e e' : Expr} {body : Stmt}
    (inner : e.Wraps n e') :
    Wraps n (.alternative k (before ++ .mk g e body :: after))
      (.alternative k (before ++ .mk g e' body :: after))
  | choiceBody {k g : Node} {before after : List Guard} {cond : Expr} {s s' : Stmt}
    (inner : Wraps n s s') :
    Wraps n (.alternative k (before ++ .mk g cond s :: after))
      (.alternative k (before ++ .mk g cond s' :: after))
  | loopTest {k g : Node} {before after : List Guard} {e e' : Expr} {body : Stmt}
    (inner : e.Wraps n e') :
    Wraps n (.iterative k (before ++ .mk g e body :: after))
      (.iterative k (before ++ .mk g e' body :: after))
  | loopBody {k g : Node} {before after : List Guard} {cond : Expr} {s s' : Stmt}
    (inner : Wraps n s s') :
    Wraps n (.iterative k (before ++ .mk g cond s :: after))
      (.iterative k (before ++ .mk g cond s' :: after))
  | block {k block : Node} {before after : List Stmt} {s s' : Stmt} (inner : Wraps n s s') :
    Wraps n (.block k block (before ++ s :: after)) (.block k block (before ++ s' :: after))
  | ret {k : Node} {e e' : Expr} (inner : e.Wraps n e') :
    Wraps n (.ret k (some e)) (.ret k (some e'))
  | argument {k : Node} {callee : Ident} {before after : List Expr} {e e' : Expr}
    (inner : e.Wraps n e') :
    Wraps n (.call k callee (before ++ e :: after)) (.call k callee (before ++ e' :: after))

/-- One occurrence of an expression in a program is put in parentheses. -/
inductive Program.Wraps (n : Node) : Program → Program → Prop
  | body {name : Ident} {span : Span} {before after : List Stmt} {s s' : Stmt}
    (inner : s.Wraps n s') :
    Wraps n ⟨name, before ++ s :: after, span⟩ ⟨name, before ++ s' :: after, span⟩

namespace Expr

mutual

/-- The expression without its parentheses that have the number `n`. -/
def strip (n : NodeId) : Expr → Expr
  | .int k v => .int k v
  | .float k v => .float k v
  | .bool k b => .bool k b
  | .var k name => .var k name
  | .index k array i => .index k array (i.strip n)
  | .call k callee args => .call k callee (stripAll n args)
  | .paren k inner => if k.id = n then inner.strip n else .paren k (inner.strip n)
  | .unary k op operand => .unary k op (operand.strip n)
  | .binary k op lhs rhs => .binary k op (lhs.strip n) (rhs.strip n)

def stripAll (n : NodeId) : List Expr → List Expr
  | [] => []
  | e :: es => e.strip n :: stripAll n es

end

variable {n : NodeId}

theorem stripAll_length (es : List Expr) : (stripAll n es).length = es.length := by
  induction es with
  | nil => rfl
  | cons e es ih => simp [stripAll, ih]

theorem stripAll_append (xs ys : List Expr) :
    stripAll n (xs ++ ys) = stripAll n xs ++ stripAll n ys := by
  induction xs with
  | nil => rfl
  | cons e es ih => simp [stripAll, ih]

theorem idsAll_append (xs ys : List Expr) : idsAll (xs ++ ys) = idsAll xs ++ idsAll ys := by
  induction xs with
  | nil => rfl
  | cons e es ih => simp [idsAll, ih]

theorem partsAll_append (xs ys : List Expr) : partsAll (xs ++ ys) = partsAll xs ++ partsAll ys := by
  induction xs with
  | nil => rfl
  | cons e es ih => simp [partsAll, ih]

mutual

theorem strip_of_fresh : (e : Expr) → n ∉ e.ids → e.strip n = e
  | .int .., _ | .float .., _ | .bool .., _ | .var .., _ => rfl
  | .index k array i, fresh => by
    simp only [ids, List.mem_cons, List.mem_append, not_or] at fresh
    rw [strip, strip_of_fresh i fresh.2.1]
  | .call k callee args, fresh => by
    simp only [ids, List.mem_cons, List.mem_append, not_or] at fresh
    rw [strip, stripAll_of_fresh args fresh.2.1]
  | .paren k inner, fresh => by
    simp only [ids, List.mem_append, List.mem_singleton, not_or] at fresh
    rw [strip, if_neg (Ne.symm fresh.2), strip_of_fresh inner fresh.1]
  | .unary k op operand, fresh => by
    simp only [ids, List.mem_append, not_or] at fresh
    rw [strip, strip_of_fresh operand fresh.1]
  | .binary k op lhs rhs, fresh => by
    simp only [ids, List.mem_append, not_or] at fresh
    rw [strip, strip_of_fresh lhs fresh.1.1, strip_of_fresh rhs fresh.1.2]

theorem stripAll_of_fresh : (es : List Expr) → n ∉ idsAll es → stripAll n es = es
  | [], _ => rfl
  | e :: es, fresh => by
    simp only [idsAll, List.mem_append, not_or] at fresh
    rw [stripAll, strip_of_fresh e fresh.1, stripAll_of_fresh es fresh.2]

end

/-- The number of an expression that is not one of the parentheses stays. -/
theorem strip_id {e : Expr} (own : e.id ≠ n) : (e.strip n).id = e.id := by
  cases e with
  | paren k inner =>
    have other : k.id ≠ n := own
    rw [strip, if_neg other]
    rfl
  | int | float | bool | var | index | call | unary | binary => rfl

/-- Whatever has the number `n` is parentheses around the expression with the number `m`. -/
def Marked (n m : NodeId) (exprs : List Expr) : Prop :=
  ∀ e ∈ exprs, e.id = n → ∃ k inner, e = .paren k inner ∧ inner.id = m

namespace Marked
variable {m : NodeId} {exprs : List Expr}

theorem inner_id (h : Marked n m exprs) {k : Node} {inner : Expr} (mem : .paren k inner ∈ exprs)
    (own : k.id = n) : inner.id = m := by
  obtain ⟨k', inner', same, wrapped⟩ := h _ mem own
  obtain ⟨rfl, rfl⟩ := Expr.paren.inj same
  exact wrapped

theorem ne_id (h : Marked n m exprs) {e : Expr} (mem : e ∈ exprs)
    (plain : ∀ k inner, e ≠ .paren k inner) : e.id ≠ n := by
  intro own
  obtain ⟨k, inner, rfl, -⟩ := h e mem own
  exact plain k inner rfl

end Marked

namespace Wraps
variable {n : Node} {e e' : Expr}

theorem strip_eq (h : e.Wraps n e') (fresh : n.id ∉ e.ids) : e'.strip n.id = e := by
  induction h with
  | here e => rw [strip, if_pos rfl, strip_of_fresh e fresh]
  | index inner ih =>
    simp only [ids, List.mem_cons, List.mem_append, not_or] at fresh
    rw [strip, ih fresh.2.1]
  | call inner ih =>
    simp only [ids, idsAll_append, idsAll, List.mem_cons, List.mem_append, not_or] at fresh
    obtain ⟨-, ⟨before, own, after⟩, -⟩ := fresh
    rw [strip, stripAll_append, stripAll, stripAll_of_fresh _ before, stripAll_of_fresh _ after,
      ih own]
  | paren inner ih =>
    simp only [ids, List.mem_append, List.mem_singleton, not_or] at fresh
    rw [strip, if_neg (Ne.symm fresh.2), ih fresh.1]
  | unary inner ih =>
    simp only [ids, List.mem_append, not_or] at fresh
    rw [strip, ih fresh.1]
  | left inner ih =>
    simp only [ids, List.mem_append, not_or] at fresh
    rw [strip, ih fresh.1.1, strip_of_fresh _ fresh.1.2]
  | right inner ih =>
    simp only [ids, List.mem_append, not_or] at fresh
    rw [strip, ih fresh.1.2, strip_of_fresh _ fresh.1.1]

/-- The new number is the only one that is added. -/
theorem count_ids (h : e.Wraps n e') (k : NodeId) :
    e'.ids.count k = e.ids.count k + [n.id].count k := by
  induction h with
  | here e => simp [ids]
  | index inner ih | call inner ih | paren inner ih | unary inner ih | left inner ih
  | right inner ih =>
    simp only [ids, idsAll_append, idsAll, List.count_cons, List.count_append] at ih ⊢
    omega

theorem mem_parts (h : e.Wraps n e') : ∃ w, .paren n w ∈ e'.parts ∧ w.id ∈ e.ids := by
  induction h with
  | here e =>
    exact ⟨e, by simp [parts], (parts_ids e).subset (List.mem_map_of_mem e.mem_parts)⟩
  | index inner ih | call inner ih | paren inner ih | unary inner ih | left inner ih
  | right inner ih =>
    obtain ⟨w, mem, own⟩ := ih
    refine ⟨w, ?_, ?_⟩
    · simp [parts, partsAll_append, partsAll, mem]
    · simp [ids, idsAll_append, idsAll, own]

end Wraps

end Expr

namespace Target

def strip (n : NodeId) : Target → Target
  | .var name => .var name
  | .index array i => .index array (i.strip n)

variable {n : NodeId}

theorem idsAll_append (xs ys : List Target) : idsAll (xs ++ ys) = idsAll xs ++ idsAll ys := by
  induction xs with
  | nil => rfl
  | cons t ts ih => simp [idsAll, ih]

theorem exprsAll_append (xs ys : List Target) :
    exprsAll (xs ++ ys) = exprsAll xs ++ exprsAll ys := by
  induction xs with
  | nil => rfl
  | cons t ts ih => simp [exprsAll, ih]

theorem strip_of_fresh (t : Target) (fresh : n ∉ t.ids) : t.strip n = t := by
  cases t with
  | var name => rfl
  | index array i =>
    simp only [ids, List.mem_cons, not_or] at fresh
    rw [strip, i.strip_of_fresh fresh.2]

theorem map_strip_of_fresh (ts : List Target) (fresh : n ∉ idsAll ts) : ts.map (strip n) = ts := by
  induction ts with
  | nil => rfl
  | cons t ts ih =>
    simp only [idsAll, List.mem_append, not_or] at fresh
    rw [List.map_cons, strip_of_fresh t fresh.1, ih fresh.2]

namespace Wraps
variable {n : Node} {t t' : Target}

theorem strip_eq (h : t.Wraps n t') (fresh : n.id ∉ t.ids) : t'.strip n.id = t := by
  cases h with
  | index inner =>
    simp only [ids, List.mem_cons, not_or] at fresh
    rw [strip, inner.strip_eq fresh.2]

theorem count_ids (h : t.Wraps n t') (k : NodeId) :
    t'.ids.count k = t.ids.count k + [n.id].count k := by
  cases h with
  | index inner =>
    have added := inner.count_ids k
    simp only [ids, List.count_cons] at added ⊢
    omega

theorem mem_exprs (h : t.Wraps n t') : ∃ w, .paren n w ∈ t'.exprs ∧ w.id ∈ t.ids := by
  cases h with
  | index inner =>
    obtain ⟨w, mem, own⟩ := inner.mem_parts
    exact ⟨w, mem, List.mem_cons_of_mem _ own⟩

end Wraps

end Target

mutual

/-- The statement without its parentheses that have the number `n`. -/
def Stmt.strip (n : NodeId) : Stmt → Stmt
  | .varDecl k ty names => .varDecl k ty names
  | .arrayDecl k ty size names => .arrayDecl k ty (size.strip n) names
  | .method k name params result block body =>
    .method k name params result block (Stmt.stripAll n body)
  | .assign k targets values =>
    .assign k (targets.map (Target.strip n)) (Expr.stripAll n values)
  | .input k names => .input k names
  | .print k value => .print k (value.strip n)
  | .alternative k guards => .alternative k (Guard.stripAll n guards)
  | .iterative k guards => .iterative k (Guard.stripAll n guards)
  | .block k block body => .block k block (Stmt.stripAll n body)
  | .ret k none => .ret k none
  | .ret k (some value) => .ret k (some (value.strip n))
  | .call k callee args => .call k callee (Expr.stripAll n args)

def Stmt.stripAll (n : NodeId) : List Stmt → List Stmt
  | [] => []
  | s :: ss => s.strip n :: Stmt.stripAll n ss

def Guard.stripAll (n : NodeId) : List Guard → List Guard
  | [] => []
  | .mk k cond body :: gs => .mk k (cond.strip n) (body.strip n) :: Guard.stripAll n gs

end

section
variable {n : NodeId}

theorem Stmt.stripAll_append (xs ys : List Stmt) :
    Stmt.stripAll n (xs ++ ys) = Stmt.stripAll n xs ++ Stmt.stripAll n ys := by
  induction xs with
  | nil => rfl
  | cons s ss ih => simp [Stmt.stripAll, ih]

theorem Stmt.idsAll_append (xs ys : List Stmt) :
    Stmt.idsAll (xs ++ ys) = Stmt.idsAll xs ++ Stmt.idsAll ys := by
  induction xs with
  | nil => rfl
  | cons s ss ih => simp [Stmt.idsAll, ih]

theorem Stmt.exprsAll_append (xs ys : List Stmt) :
    Stmt.exprsAll (xs ++ ys) = Stmt.exprsAll xs ++ Stmt.exprsAll ys := by
  induction xs with
  | nil => rfl
  | cons s ss ih => simp [Stmt.exprsAll, ih]

theorem Guard.stripAll_append (xs ys : List Guard) :
    Guard.stripAll n (xs ++ ys) = Guard.stripAll n xs ++ Guard.stripAll n ys := by
  induction xs with
  | nil => rfl
  | cons g gs ih =>
    cases g
    simp [Guard.stripAll, ih]

theorem Guard.idsAll_append (xs ys : List Guard) :
    Guard.idsAll (xs ++ ys) = Guard.idsAll xs ++ Guard.idsAll ys := by
  induction xs with
  | nil => rfl
  | cons g gs ih =>
    cases g
    simp [Guard.idsAll, ih]

theorem Guard.exprsAll_append (xs ys : List Guard) :
    Guard.exprsAll (xs ++ ys) = Guard.exprsAll xs ++ Guard.exprsAll ys := by
  induction xs with
  | nil => rfl
  | cons g gs ih =>
    cases g
    simp [Guard.exprsAll, ih]

mutual

theorem Stmt.strip_of_fresh : (s : Stmt) → n ∉ s.ids → s.strip n = s
  | .varDecl .., _ | .input .., _ | .ret _ none, _ => rfl
  | .arrayDecl k ty size names, fresh => by
    simp only [Stmt.ids, List.mem_append, not_or] at fresh
    rw [Stmt.strip, size.strip_of_fresh fresh.1.1]
  | .method k name params result block body, fresh => by
    simp only [Stmt.ids, List.mem_cons, List.mem_append, not_or] at fresh
    rw [Stmt.strip, Stmt.stripAll_of_fresh body fresh.2.1.2.1]
  | .assign k targets values, fresh => by
    simp only [Stmt.ids, List.mem_append, not_or] at fresh
    rw [Stmt.strip, Target.map_strip_of_fresh targets fresh.1.1,
      Expr.stripAll_of_fresh values fresh.1.2]
  | .print k value, fresh => by
    simp only [Stmt.ids, List.mem_append, not_or] at fresh
    rw [Stmt.strip, value.strip_of_fresh fresh.1]
  | .alternative k guards, fresh | .iterative k guards, fresh => by
    simp only [Stmt.ids, List.mem_append, not_or] at fresh
    rw [Stmt.strip, Guard.stripAll_of_fresh guards fresh.1]
  | .block k block body, fresh => by
    simp only [Stmt.ids, List.mem_append, not_or] at fresh
    rw [Stmt.strip, Stmt.stripAll_of_fresh body fresh.1.1]
  | .ret k (some value), fresh => by
    simp only [Stmt.ids, List.mem_append, not_or] at fresh
    rw [Stmt.strip, value.strip_of_fresh fresh.1]
  | .call k callee args, fresh => by
    simp only [Stmt.ids, List.mem_cons, List.mem_append, not_or] at fresh
    rw [Stmt.strip, Expr.stripAll_of_fresh args fresh.2.1]

theorem Stmt.stripAll_of_fresh : (ss : List Stmt) → n ∉ Stmt.idsAll ss → Stmt.stripAll n ss = ss
  | [], _ => rfl
  | s :: ss, fresh => by
    simp only [Stmt.idsAll, List.mem_append, not_or] at fresh
    rw [Stmt.stripAll, Stmt.strip_of_fresh s fresh.1, Stmt.stripAll_of_fresh ss fresh.2]

theorem Guard.stripAll_of_fresh : (gs : List Guard) → n ∉ Guard.idsAll gs →
    Guard.stripAll n gs = gs
  | [], _ => rfl
  | .mk k cond body :: gs, fresh => by
    simp only [Guard.idsAll, List.mem_append, not_or] at fresh
    obtain ⟨⟨⟨test, allowed⟩, -⟩, rest⟩ := fresh
    rw [Guard.stripAll, cond.strip_of_fresh test, Stmt.strip_of_fresh body allowed,
      Guard.stripAll_of_fresh gs rest]

end

end

namespace Stmt.Wraps
variable {n : Node} {s s' : Stmt}

theorem strip_eq (h : s.Wraps n s') (fresh : n.id ∉ s.ids) : s'.strip n.id = s := by
  induction h with
  | size inner =>
    simp only [Stmt.ids, List.mem_append, not_or] at fresh
    rw [Stmt.strip, inner.strip_eq fresh.1.1]
  | method inner ih =>
    simp only [Stmt.ids, Stmt.idsAll_append, Stmt.idsAll, List.mem_cons, List.mem_append,
      not_or] at fresh
    obtain ⟨-, ⟨-, ⟨before, own, after⟩, -⟩, -⟩ := fresh
    rw [Stmt.strip, Stmt.stripAll_append, Stmt.stripAll, ih own, Stmt.stripAll_of_fresh _ before,
      Stmt.stripAll_of_fresh _ after]
  | target inner =>
    simp only [Stmt.ids, Target.idsAll_append, Target.idsAll, List.mem_append, not_or] at fresh
    obtain ⟨⟨⟨before, own, after⟩, values⟩, -⟩ := fresh
    rw [Stmt.strip, List.map_append, List.map_cons, inner.strip_eq own,
      Target.map_strip_of_fresh _ before, Target.map_strip_of_fresh _ after,
      Expr.stripAll_of_fresh _ values]
  | value inner =>
    simp only [Stmt.ids, Expr.idsAll_append, Expr.idsAll, List.mem_append, not_or] at fresh
    obtain ⟨⟨targets, before, own, after⟩, -⟩ := fresh
    rw [Stmt.strip, Expr.stripAll_append, Expr.stripAll, inner.strip_eq own,
      Expr.stripAll_of_fresh _ before, Expr.stripAll_of_fresh _ after,
      Target.map_strip_of_fresh _ targets]
  | print inner | ret inner =>
    simp only [Stmt.ids, List.mem_append, not_or] at fresh
    rw [Stmt.strip, inner.strip_eq fresh.1]
  | choiceTest inner | loopTest inner =>
    simp only [Stmt.ids, Guard.idsAll_append, Guard.idsAll, List.mem_append, not_or] at fresh
    obtain ⟨⟨before, ⟨⟨own, body⟩, -⟩, after⟩, -⟩ := fresh
    rw [Stmt.strip, Guard.stripAll_append, Guard.stripAll, inner.strip_eq own,
      Stmt.strip_of_fresh _ body, Guard.stripAll_of_fresh _ before,
      Guard.stripAll_of_fresh _ after]
  | choiceBody inner ih | loopBody inner ih =>
    simp only [Stmt.ids, Guard.idsAll_append, Guard.idsAll, List.mem_append, not_or] at fresh
    obtain ⟨⟨before, ⟨⟨test, own⟩, -⟩, after⟩, -⟩ := fresh
    rw [Stmt.strip, Guard.stripAll_append, Guard.stripAll, ih own, Expr.strip_of_fresh _ test,
      Guard.stripAll_of_fresh _ before, Guard.stripAll_of_fresh _ after]
  | block inner ih =>
    simp only [Stmt.ids, Stmt.idsAll_append, Stmt.idsAll, List.mem_append, not_or] at fresh
    obtain ⟨⟨⟨before, own, after⟩, -⟩, -⟩ := fresh
    rw [Stmt.strip, Stmt.stripAll_append, Stmt.stripAll, ih own, Stmt.stripAll_of_fresh _ before,
      Stmt.stripAll_of_fresh _ after]
  | argument inner =>
    simp only [Stmt.ids, Expr.idsAll_append, Expr.idsAll, List.mem_cons, List.mem_append,
      not_or] at fresh
    obtain ⟨-, ⟨before, own, after⟩, -⟩ := fresh
    rw [Stmt.strip, Expr.stripAll_append, Expr.stripAll, inner.strip_eq own,
      Expr.stripAll_of_fresh _ before, Expr.stripAll_of_fresh _ after]

theorem count_ids (h : s.Wraps n s') (k : NodeId) :
    s'.ids.count k = s.ids.count k + [n.id].count k := by
  induction h with
  | size inner | value inner | print inner | choiceTest inner | loopTest inner | ret inner
  | argument inner | target inner =>
    have added := inner.count_ids k
    simp only [Stmt.ids, Expr.idsAll_append, Expr.idsAll, Target.idsAll_append, Target.idsAll,
      Guard.idsAll_append, Guard.idsAll, List.count_cons, List.count_append] at added ⊢
    omega
  | method inner ih | choiceBody inner ih | loopBody inner ih | block inner ih =>
    simp only [Stmt.ids, Stmt.idsAll_append, Stmt.idsAll, Guard.idsAll_append, Guard.idsAll,
      List.count_cons, List.count_append] at ih ⊢
    omega

theorem mem_exprs (h : s.Wraps n s') : ∃ w, .paren n w ∈ s'.exprs ∧ w.id ∈ s.ids := by
  induction h with
  | size inner | value inner | print inner | choiceTest inner | loopTest inner | ret inner
  | argument inner =>
    obtain ⟨w, mem, own⟩ := inner.mem_parts
    refine ⟨w, ?_, ?_⟩
    · simp [Stmt.exprs, Expr.partsAll_append, Expr.partsAll, Guard.exprsAll_append, Guard.exprsAll,
        mem]
    · simp [Stmt.ids, Expr.idsAll_append, Expr.idsAll, Guard.idsAll_append, Guard.idsAll, own]
  | target inner =>
    obtain ⟨w, mem, own⟩ := inner.mem_exprs
    refine ⟨w, ?_, ?_⟩
    · simp [Stmt.exprs, Target.exprsAll_append, Target.exprsAll, mem]
    · simp [Stmt.ids, Target.idsAll_append, Target.idsAll, own]
  | method inner ih | choiceBody inner ih | loopBody inner ih | block inner ih =>
    obtain ⟨w, mem, own⟩ := ih
    refine ⟨w, ?_, ?_⟩
    · simp [Stmt.exprs, Stmt.exprsAll_append, Stmt.exprsAll, Guard.exprsAll_append, Guard.exprsAll,
        mem]
    · simp [Stmt.ids, Stmt.idsAll_append, Stmt.idsAll, Guard.idsAll_append, Guard.idsAll, own]

end Stmt.Wraps

namespace Program

/-- The program without its parentheses that have the number `n`. -/
def strip (n : NodeId) (p : Program) : Program :=
  { p with body := Stmt.stripAll n p.body }

namespace Wraps
variable {n : Node} {p p' : Program}

theorem strip_eq (h : p.Wraps n p') (fresh : n.id ∉ p.ids) : p'.strip n.id = p := by
  cases h with
  | body inner =>
    simp only [ids, Stmt.idsAll_append, Stmt.idsAll, List.mem_cons, List.mem_append,
      not_or] at fresh
    obtain ⟨-, before, own, after⟩ := fresh
    rw [strip, Stmt.stripAll_append, Stmt.stripAll, inner.strip_eq own,
      Stmt.stripAll_of_fresh _ before, Stmt.stripAll_of_fresh _ after]

theorem distinct (h : p.Wraps n p') (distinct : p.ids.Nodup) (fresh : n.id ∉ p.ids) :
    p'.ids.Nodup := by
  rw [List.nodup_iff_count_le_one] at distinct ⊢
  intro k
  have added : p'.ids.count k = p.ids.count k + [n.id].count k := by
    cases h with
    | body inner =>
      have added := inner.count_ids k
      simp only [ids, Stmt.idsAll_append, Stmt.idsAll, List.count_cons,
        List.count_append] at added ⊢
      omega
  rw [added]
  by_cases same : n.id = k
  · subst same
    simp [List.count_eq_zero_of_not_mem fresh]
  · simpa [same] using distinct k

theorem marked (h : p.Wraps n p') (distinct : p.ids.Nodup) (fresh : n.id ∉ p.ids) :
    ∃ m, m ≠ n.id ∧ Expr.Marked n.id m p'.exprs := by
  obtain ⟨w, mem, own⟩ : ∃ w, .paren n w ∈ p'.exprs ∧ w.id ∈ p.ids := by
    cases h with
    | body inner =>
      obtain ⟨w, mem, own⟩ := inner.mem_exprs
      refine ⟨w, ?_, ?_⟩
      · simp [exprs, Stmt.exprsAll_append, Stmt.exprsAll, mem]
      · simp [ids, Stmt.idsAll_append, Stmt.idsAll, own]
  refine ⟨w.id, fun same => fresh (same ▸ own), fun e mem' same => ⟨n, w, ?_, rfl⟩⟩
  exact List.inj_on_of_nodup_map (exprs_nodup (h.distinct distinct fresh)) mem' mem same

end Wraps

end Program

end Guarded
