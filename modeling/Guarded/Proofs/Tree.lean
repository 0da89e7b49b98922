import Guarded.Analysis.Inference
import Guarded.Program
import Mathlib.Data.List.Nodup

/-!
Listings of a program tree: the numbers of its nodes in the order in which they are handed out, its
expressions, and its method declarations. A node comes after all that is inside it.
-/

namespace Guarded

namespace Expr

mutual

/-- The numbers of an expression: its own and those inside it. -/
def ids : Expr → List NodeId
  | .int n _ | .float n _ | .bool n _ => [n.id]
  | .var n name => [name.id, n.id]
  | .index n array i => array.id :: (i.ids ++ [n.id])
  | .call n callee args => callee.id :: (idsAll args ++ [n.id])
  | .paren n inner => inner.ids ++ [n.id]
  | .unary n _ operand => operand.ids ++ [n.id]
  | .binary n _ lhs rhs => lhs.ids ++ rhs.ids ++ [n.id]

def idsAll : List Expr → List NodeId
  | [] => []
  | e :: es => e.ids ++ idsAll es

end

mutual

/-- An expression and all that are inside it. -/
def parts : Expr → List Expr
  | .int n v => [.int n v]
  | .float n v => [.float n v]
  | .bool n b => [.bool n b]
  | .var n name => [.var n name]
  | .index n array i => i.parts ++ [.index n array i]
  | .call n callee args => partsAll args ++ [.call n callee args]
  | .paren n inner => inner.parts ++ [.paren n inner]
  | .unary n op operand => operand.parts ++ [.unary n op operand]
  | .binary n op lhs rhs => lhs.parts ++ rhs.parts ++ [.binary n op lhs rhs]

def partsAll : List Expr → List Expr
  | [] => []
  | e :: es => e.parts ++ partsAll es

end

theorem mem_parts (e : Expr) : e ∈ e.parts := by
  cases e <;> simp [parts]

mutual

theorem parts_ids : (e : Expr) → (e.parts.map id).Sublist e.ids
  | .int .. | .float .. | .bool .. => by simp [parts, ids, Expr.id, node]
  | .var .. => by simp [parts, ids, Expr.id, node]
  | .index n array i => by
    simpa [parts, ids, Expr.id, node] using ((parts_ids i).append (.refl [n.id])).cons array.id
  | .call n callee args => by
    simpa [parts, ids, Expr.id, node] using
      ((partsAll_ids args).append (.refl [n.id])).cons callee.id
  | .paren n inner => by
    simpa [parts, ids, Expr.id, node] using (parts_ids inner).append (.refl [n.id])
  | .unary n _ operand => by
    simpa [parts, ids, Expr.id, node] using (parts_ids operand).append (.refl [n.id])
  | .binary n _ lhs rhs => by
    simpa [parts, ids, Expr.id, node] using
      ((parts_ids lhs).append (parts_ids rhs)).append (.refl [n.id])

theorem partsAll_ids : (es : List Expr) → ((partsAll es).map id).Sublist (idsAll es)
  | [] => by simp [partsAll, idsAll]
  | e :: es => by simpa [partsAll, idsAll] using (parts_ids e).append (partsAll_ids es)

end

mutual

theorem parts_length : (e : Expr) → e.parts.length = e.count
  | .int .. | .float .. | .bool .. | .var .. => by simp [parts, count]
  | .index _ _ i => by simp [parts, count, parts_length i, Nat.add_comm]
  | .call _ _ args => by simp [parts, count, partsAll_length args, Nat.add_comm]
  | .paren _ inner => by simp [parts, count, parts_length inner, Nat.add_comm]
  | .unary _ _ operand => by simp [parts, count, parts_length operand, Nat.add_comm]
  | .binary _ _ lhs rhs => by
    simp only [parts, count, List.length_append, parts_length lhs, parts_length rhs,
      List.length_singleton]
    omega

theorem partsAll_length : (es : List Expr) → (partsAll es).length = countAll es
  | [] => rfl
  | e :: es => by simp [partsAll, countAll, parts_length e, partsAll_length es]

end

end Expr

namespace Target

def ids : Target → List NodeId
  | .var name => [name.id]
  | .index array i => array.id :: i.ids

def idsAll : List Target → List NodeId
  | [] => []
  | t :: ts => t.ids ++ idsAll ts

def exprs : Target → List Expr
  | .var _ => []
  | .index _ i => i.parts

def exprsAll : List Target → List Expr
  | [] => []
  | t :: ts => t.exprs ++ exprsAll ts

theorem exprs_ids (t : Target) : (t.exprs.map Expr.id).Sublist t.ids := by
  cases t with
  | var name => simp [exprs, ids]
  | index array i => simpa [exprs, ids] using (Expr.parts_ids i).cons array.id

theorem exprsAll_ids (ts : List Target) : ((exprsAll ts).map Expr.id).Sublist (idsAll ts) := by
  induction ts with
  | nil => simp [exprsAll, idsAll]
  | cons t ts ih => simpa [exprsAll, idsAll] using t.exprs_ids.append ih

theorem exprsAll_length (ts : List Target) : (exprsAll ts).length = exprCountAll ts := by
  induction ts with
  | nil => rfl
  | cons t ts ih =>
    cases t <;> simp [exprsAll, exprs, exprCountAll, exprCount, ih, Expr.parts_length]

end Target

/-- A method as it is declared. -/
structure Method where
  name : Ident
  params : List Param
  result : Option Ty
  body : List Stmt

mutual

def Stmt.ids : Stmt → List NodeId
  | .varDecl n _ names => names.map Ident.id ++ [n.id]
  | .arrayDecl n _ size names => size.ids ++ names.map Ident.id ++ [n.id]
  | .method n name params _ block body =>
    name.id :: (params.map (·.name.id) ++ (Stmt.idsAll body ++ [block.id]) ++ [n.id])
  | .assign n targets values => Target.idsAll targets ++ Expr.idsAll values ++ [n.id]
  | .input n names => names.map Ident.id ++ [n.id]
  | .print n value => value.ids ++ [n.id]
  | .alternative n guards | .iterative n guards => Guard.idsAll guards ++ [n.id]
  | .block n block body => Stmt.idsAll body ++ [block.id] ++ [n.id]
  | .ret n none => [n.id]
  | .ret n (some value) => value.ids ++ [n.id]
  | .call n callee args => callee.id :: (Expr.idsAll args ++ [n.id])

def Stmt.idsAll : List Stmt → List NodeId
  | [] => []
  | s :: ss => s.ids ++ Stmt.idsAll ss

def Guard.idsAll : List Guard → List NodeId
  | [] => []
  | .mk n cond body :: gs => cond.ids ++ body.ids ++ [n.id] ++ Guard.idsAll gs

end

mutual

/-- All expressions in a statement. -/
def Stmt.exprs : Stmt → List Expr
  | .varDecl .. | .input .. | .ret _ none => []
  | .arrayDecl _ _ size _ => size.parts
  | .method _ _ _ _ _ body => Stmt.exprsAll body
  | .assign _ targets values => Target.exprsAll targets ++ Expr.partsAll values
  | .print _ value => value.parts
  | .alternative _ guards | .iterative _ guards => Guard.exprsAll guards
  | .block _ _ body => Stmt.exprsAll body
  | .ret _ (some value) => value.parts
  | .call _ _ args => Expr.partsAll args

def Stmt.exprsAll : List Stmt → List Expr
  | [] => []
  | s :: ss => s.exprs ++ Stmt.exprsAll ss

def Guard.exprsAll : List Guard → List Expr
  | [] => []
  | .mk _ cond body :: gs => cond.parts ++ body.exprs ++ Guard.exprsAll gs

end

mutual

/-- All statements inside a statement, those of the methods declared in it included. -/
def Stmt.inner : Stmt → List Stmt
  | .method _ _ _ _ _ body | .block _ _ body => Stmt.innerAll body
  | .alternative _ guards | .iterative _ guards => Guard.innerAll guards
  | _ => []

def Stmt.innerAll : List Stmt → List Stmt
  | [] => []
  | s :: ss => s :: s.inner ++ Stmt.innerAll ss

def Guard.innerAll : List Guard → List Stmt
  | [] => []
  | .mk _ _ body :: gs => body :: body.inner ++ Guard.innerAll gs

end

mutual

/-- All methods declared in a statement, the inner ones of a method after it. -/
def Stmt.methods : Stmt → List Method
  | .method _ name params result _ body => ⟨name, params, result, body⟩ :: Stmt.methodsAll body
  | .alternative _ guards | .iterative _ guards => Guard.methodsAll guards
  | .block _ _ body => Stmt.methodsAll body
  | _ => []

def Stmt.methodsAll : List Stmt → List Method
  | [] => []
  | s :: ss => s.methods ++ Stmt.methodsAll ss

def Guard.methodsAll : List Guard → List Method
  | [] => []
  | .mk _ _ body :: gs => body.methods ++ Guard.methodsAll gs

end

mutual

theorem Stmt.exprs_ids : (s : Stmt) → (s.exprs.map Expr.id).Sublist s.ids
  | .varDecl .. | .input .. | .ret _ none => by simp [Stmt.exprs]
  | .arrayDecl _ _ size _ => by
    simpa [Stmt.exprs, Stmt.ids] using (Expr.parts_ids size).trans (List.sublist_append_left ..)
  | .method _ name _ _ _ body => by
    have inner := Stmt.exprsAll_ids body
    simp only [Stmt.exprs, Stmt.ids]
    exact (((inner.trans (List.sublist_append_left ..)).trans (List.sublist_append_right ..)).trans
      (List.sublist_append_left ..)).cons name.id
  | .assign n targets values => by
    simpa [Stmt.exprs, Stmt.ids] using
      ((Target.exprsAll_ids targets).append (Expr.partsAll_ids values)).trans
        (List.sublist_append_left _ [n.id])
  | .print _ value => by
    simpa [Stmt.exprs, Stmt.ids] using (Expr.parts_ids value).trans (List.sublist_append_left ..)
  | .alternative _ guards | .iterative _ guards => by
    simpa [Stmt.exprs, Stmt.ids] using
      (Guard.exprsAll_ids guards).trans (List.sublist_append_left ..)
  | .block _ _ body => by
    simpa [Stmt.exprs, Stmt.ids] using (Stmt.exprsAll_ids body).trans (List.sublist_append_left ..)
  | .ret _ (some value) => by
    simpa [Stmt.exprs, Stmt.ids] using (Expr.parts_ids value).trans (List.sublist_append_left ..)
  | .call _ callee args => by
    simpa [Stmt.exprs, Stmt.ids] using
      ((Expr.partsAll_ids args).trans (List.sublist_append_left ..)).cons callee.id

theorem Stmt.exprsAll_ids :
    (ss : List Stmt) → ((Stmt.exprsAll ss).map Expr.id).Sublist (Stmt.idsAll ss)
  | [] => by simp [Stmt.exprsAll, Stmt.idsAll]
  | s :: ss => by
    simpa [Stmt.exprsAll, Stmt.idsAll] using (Stmt.exprs_ids s).append (Stmt.exprsAll_ids ss)

theorem Guard.exprsAll_ids :
    (gs : List Guard) → ((Guard.exprsAll gs).map Expr.id).Sublist (Guard.idsAll gs)
  | [] => by simp [Guard.exprsAll, Guard.idsAll]
  | .mk n cond body :: gs => by
    have own := ((Expr.parts_ids cond).append (Stmt.exprs_ids body)).trans
      (List.sublist_append_left _ [n.id])
    simpa [Guard.exprsAll, Guard.idsAll] using own.append (Guard.exprsAll_ids gs)

end

mutual

theorem Stmt.exprs_length : (s : Stmt) → s.exprs.length = s.exprCount
  | .varDecl .. | .input .. | .ret _ none => by simp [Stmt.exprs, Stmt.exprCount]
  | .arrayDecl _ _ size _ => by simp [Stmt.exprs, Stmt.exprCount, Expr.parts_length]
  | .method _ _ _ _ _ body => by simp [Stmt.exprs, Stmt.exprCount, Stmt.exprsAll_length body]
  | .assign _ targets values => by
    simp [Stmt.exprs, Stmt.exprCount, Target.exprsAll_length, Expr.partsAll_length]
  | .print _ value => by simp [Stmt.exprs, Stmt.exprCount, Expr.parts_length]
  | .alternative _ guards | .iterative _ guards => by
    simp [Stmt.exprs, Stmt.exprCount, Guard.exprsAll_length guards]
  | .block _ _ body => by simp [Stmt.exprs, Stmt.exprCount, Stmt.exprsAll_length body]
  | .ret _ (some value) => by simp [Stmt.exprs, Stmt.exprCount, Expr.parts_length]
  | .call _ _ args => by simp [Stmt.exprs, Stmt.exprCount, Expr.partsAll_length]

theorem Stmt.exprsAll_length : (ss : List Stmt) → (Stmt.exprsAll ss).length = Stmt.exprCountAll ss
  | [] => rfl
  | s :: ss => by
    simp [Stmt.exprsAll, Stmt.exprCountAll, Stmt.exprs_length s, Stmt.exprsAll_length ss]

theorem Guard.exprsAll_length : (gs : List Guard) →
    (Guard.exprsAll gs).length = Guard.exprCountAll gs
  | [] => rfl
  | .mk _ cond body :: gs => by
    simp [Guard.exprsAll, Guard.exprCountAll, Expr.parts_length, Stmt.exprs_length body,
      Guard.exprsAll_length gs, Nat.add_assoc]

end

/-- If the parameter has a type, it is a type of values. -/
def Param.Proper (p : Param) : Prop :=
  ∀ ty, p.ty = some ty → ty.isTerminal = true

mutual

/-- Written types are types of values, and no name of a method has a `$`. -/
def Stmt.Proper : Stmt → Prop
  | .varDecl _ ty _ | .arrayDecl _ ty _ _ => ty.isTerminal = true
  | .method _ name params result _ body =>
    '$' ∉ name.name.toList ∧ (∀ p ∈ params, p.Proper) ∧
      (∀ ty, result = some ty → ty.isTerminal = true) ∧ Stmt.ProperAll body
  | .alternative _ guards | .iterative _ guards => Guard.ProperAll guards
  | .block _ _ body => Stmt.ProperAll body
  | _ => True

def Stmt.ProperAll : List Stmt → Prop
  | [] => True
  | s :: ss => s.Proper ∧ Stmt.ProperAll ss

def Guard.ProperAll : List Guard → Prop
  | [] => True
  | .mk _ _ body :: gs => body.Proper ∧ Guard.ProperAll gs

end

mutual

theorem Stmt.Proper.methods : {s : Stmt} → s.Proper → ∀ m ∈ s.methods, '$' ∉ m.name.name.toList
  | .method .., proper, m, mem => by
    rcases List.mem_cons.mp mem with rfl | mem
    · exact proper.1
    · exact Stmt.ProperAll.methods proper.2.2.2 m mem
  | .alternative .., proper, m, mem | .iterative .., proper, m, mem =>
    Guard.ProperAll.methods proper m mem
  | .block .., proper, m, mem => Stmt.ProperAll.methods proper m mem
  | .varDecl .., _, _, mem | .arrayDecl .., _, _, mem | .assign .., _, _, mem
  | .input .., _, _, mem | .print .., _, _, mem | .ret .., _, _, mem | .call .., _, _, mem => by
    simp [Stmt.methods] at mem

theorem Stmt.ProperAll.methods :
    {ss : List Stmt} → Stmt.ProperAll ss → ∀ m ∈ Stmt.methodsAll ss, '$' ∉ m.name.name.toList
  | [], _, _, mem => by simp [Stmt.methodsAll] at mem
  | _ :: _, proper, m, mem => by
    rcases List.mem_append.mp mem with mem | mem
    · exact Stmt.Proper.methods proper.1 m mem
    · exact Stmt.ProperAll.methods proper.2 m mem

theorem Guard.ProperAll.methods :
    {gs : List Guard} → Guard.ProperAll gs → ∀ m ∈ Guard.methodsAll gs, '$' ∉ m.name.name.toList
  | [], _, _, mem => by simp [Guard.methodsAll] at mem
  | .mk .. :: _, proper, m, mem => by
    rcases List.mem_append.mp mem with mem | mem
    · exact Stmt.Proper.methods proper.1 m mem
    · exact Guard.ProperAll.methods proper.2 m mem

end

namespace Program

/-- The numbers of all nodes of a program. -/
def ids (p : Program) : List NodeId :=
  p.name.id :: Stmt.idsAll p.body

/-- All expressions of a program. -/
def exprs (p : Program) : List Expr :=
  Stmt.exprsAll p.body

/-- All statements of a program. -/
def stmts (p : Program) : List Stmt :=
  Stmt.innerAll p.body

/-- All methods of a program. -/
def methods (p : Program) : List Method :=
  Stmt.methodsAll p.body

theorem exprs_length (p : Program) : p.exprs.length = Stmt.exprCountAll p.body :=
  Stmt.exprsAll_length p.body

/-- In a program with distinct numbers an expression is known by its number. -/
theorem exprs_nodup {p : Program} (distinct : p.ids.Nodup) : (p.exprs.map Expr.id).Nodup :=
  (Stmt.exprsAll_ids p.body).nodup (List.nodup_cons.mp distinct).2

end Program

end Guarded
