import Guarded.Proofs.Bound

/-!
The names of a program, in the order in which they are visited. This is the order of the source,
except that the values of an assignment come before its targets. Each name stands at a site, in the
scopes of the methods and blocks around it, and has a role there.

Which names declare follows from this list alone. A declaration does, and so does the target of an
assignment or of an input if nothing that was declared before is visible there under its name.
-/

namespace Guarded

/-- Where something stands in a program. -/
structure Site where
  /-- The scopes around it below that of the program, the innermost first. The parameters and the body
  of a method are one scope, which is known by the number of the method's name; a block is a scope,
  and known by its own number. -/
  scopes : List NodeId
  /-- The innermost method around it. -/
  method : Option NodeId
deriving DecidableEq

namespace Site

/-- Outside of all methods and blocks. -/
def top : Site :=
  ⟨[], none⟩

def inMethod (site : Site) (name : Ident) : Site :=
  ⟨name.id :: site.scopes, some name.id⟩

def inBlock (site : Site) (block : Node) : Site :=
  { site with scopes := block.id :: site.scopes }

end Site

/-- What a name is there for. -/
inductive Role where
  /-- Declares a variable or a parameter. -/
  | variable
  /-- Declares an array. -/
  | array
  /-- Declares a function or a procedure. -/
  | method (function : Bool) (params : List Ident)
  /-- Is assigned a value, or reads one from the input. -/
  | assigned
  /-- Gives the value of a variable. -/
  | read
  /-- Is an array of which an element is read or assigned. -/
  | element
  /-- Calls a function or a procedure with so many arguments. -/
  | called (function : Bool) (count : Nat)
deriving DecidableEq

namespace Role

def isDeclaration : Role → Bool
  | .variable | .array | .method .. => true
  | _ => false

def isMethod : Role → Bool
  | .method .. => true
  | _ => false

end Role

/-- A name in a program. -/
structure Occurrence where
  name : Ident
  role : Role
  site : Site
deriving DecidableEq

mutual

def Expr.occurrences (site : Site) : Expr → List Occurrence
  | .int .. | .float .. | .bool .. => []
  | .var _ name => [⟨name, .read, site⟩]
  | .index _ array i => ⟨array, .element, site⟩ :: i.occurrences site
  | .call _ callee args => ⟨callee, .called true args.length, site⟩ :: Expr.occurrencesAll site args
  | .paren _ inner => inner.occurrences site
  | .unary _ _ operand => operand.occurrences site
  | .binary _ _ lhs rhs => lhs.occurrences site ++ rhs.occurrences site

def Expr.occurrencesAll (site : Site) : List Expr → List Occurrence
  | [] => []
  | e :: es => e.occurrences site ++ Expr.occurrencesAll site es

end

def Target.occurrences (site : Site) : Target → List Occurrence
  | .var name => [⟨name, .assigned, site⟩]
  | .index array i => ⟨array, .element, site⟩ :: i.occurrences site

/-- The parameters of a method; they stand where its body does. -/
def Param.occurrences (site : Site) (params : List Param) : List Occurrence :=
  params.map fun p => ⟨p.name, .variable, site⟩

mutual

def Stmt.occurrences (site : Site) : Stmt → List Occurrence
  | .varDecl _ _ names => names.map fun name => ⟨name, .variable, site⟩
  | .arrayDecl _ _ size names =>
    size.occurrences site ++ names.map fun name => ⟨name, .array, site⟩
  | .method _ name params result _ body =>
    ⟨name, .method result.isSome (params.map Param.name), site⟩ ::
      (Param.occurrences (site.inMethod name) params ++ Stmt.occurrencesAll (site.inMethod name) body)
  | .assign _ targets values =>
    Expr.occurrencesAll site values ++ targets.flatMap (Target.occurrences site)
  | .input _ names => names.map fun name => ⟨name, .assigned, site⟩
  | .print _ value => value.occurrences site
  | .alternative _ guards | .iterative _ guards => Guard.occurrencesAll site guards
  | .block _ block body => Stmt.occurrencesAll (site.inBlock block) body
  | .ret _ none => []
  | .ret _ (some value) => value.occurrences site
  | .call _ callee args => ⟨callee, .called false args.length, site⟩ :: Expr.occurrencesAll site args

def Stmt.occurrencesAll (site : Site) : List Stmt → List Occurrence
  | [] => []
  | s :: ss => s.occurrences site ++ Stmt.occurrencesAll site ss

/-- A guard opens no scope. -/
def Guard.occurrencesAll (site : Site) : List Guard → List Occurrence
  | [] => []
  | .mk _ cond body :: gs =>
    cond.occurrences site ++ body.occurrences site ++ Guard.occurrencesAll site gs

end

/-- The names of a program in the order in which they are visited, without its own name. -/
def Program.occurrences (p : Program) : List Occurrence :=
  Stmt.occurrencesAll .top p.body

mutual

/-- The names of an expression in the order of the source. -/
def Expr.idents : Expr → List Ident
  | .int .. | .float .. | .bool .. => []
  | .var _ name => [name]
  | .index _ array i => array :: i.idents
  | .call _ callee args => callee :: Expr.identsAll args
  | .paren _ inner => inner.idents
  | .unary _ _ operand => operand.idents
  | .binary _ _ lhs rhs => lhs.idents ++ rhs.idents

def Expr.identsAll : List Expr → List Ident
  | [] => []
  | e :: es => e.idents ++ Expr.identsAll es

end

def Target.idents : Target → List Ident
  | .var name => [name]
  | .index array i => array :: i.idents

mutual

/-- The names of a statement in the order of the source. -/
def Stmt.idents : Stmt → List Ident
  | .varDecl _ _ names | .input _ names => names
  | .arrayDecl _ _ size names => size.idents ++ names
  | .method _ name params _ _ body => name :: (params.map Param.name ++ Stmt.identsAll body)
  | .assign _ targets values => targets.flatMap Target.idents ++ Expr.identsAll values
  | .print _ value | .ret _ (some value) => value.idents
  | .alternative _ guards | .iterative _ guards => Guard.identsAll guards
  | .block _ _ body => Stmt.identsAll body
  | .ret _ none => []
  | .call _ callee args => callee :: Expr.identsAll args

def Stmt.identsAll : List Stmt → List Ident
  | [] => []
  | s :: ss => s.idents ++ Stmt.identsAll ss

def Guard.identsAll : List Guard → List Ident
  | [] => []
  | .mk _ cond body :: gs => cond.idents ++ body.idents ++ Guard.identsAll gs

end

/-- The names of a program in the order of the source, without its own name. -/
def Program.idents (p : Program) : List Ident :=
  Stmt.identsAll p.body

section Listing
variable (site : Site)

mutual

theorem Expr.occurrences_names : (e : Expr) →
    (e.occurrences site).map Occurrence.name = e.idents
  | .int .. | .float .. | .bool .. | .var .. => by simp [Expr.occurrences, Expr.idents]
  | .index _ _ i => by simp [Expr.occurrences, Expr.idents, i.occurrences_names]
  | .call _ _ args => by simp [Expr.occurrences, Expr.idents, Expr.occurrencesAll_names args]
  | .paren _ inner => by simp [Expr.occurrences, Expr.idents, inner.occurrences_names]
  | .unary _ _ operand => by simp [Expr.occurrences, Expr.idents, operand.occurrences_names]
  | .binary _ _ lhs rhs => by
    simp [Expr.occurrences, Expr.idents, lhs.occurrences_names, rhs.occurrences_names]

theorem Expr.occurrencesAll_names : (es : List Expr) →
    (Expr.occurrencesAll site es).map Occurrence.name = Expr.identsAll es
  | [] => rfl
  | e :: es => by
    simp [Expr.occurrencesAll, Expr.identsAll, e.occurrences_names, Expr.occurrencesAll_names es]

end

theorem Target.occurrences_names (ts : List Target) :
    (ts.flatMap (Target.occurrences site)).map Occurrence.name = ts.flatMap Target.idents := by
  rw [List.map_flatMap]
  congr 1
  funext t
  cases t with
  | var name => rfl
  | index array i => simp [Target.occurrences, Target.idents, i.occurrences_names]

end Listing

mutual

/-- A visit meets each name of a statement once. -/
theorem Stmt.occurrences_perm : (s : Stmt) → (site : Site) →
    ((s.occurrences site).map Occurrence.name).Perm s.idents
  | .varDecl .., _ | .input .., _ => by simp [Stmt.occurrences, Stmt.idents, Function.comp_def]
  | .arrayDecl _ _ size names, site => by
    simp [Stmt.occurrences, Stmt.idents, Function.comp_def, size.occurrences_names]
  | .method _ name params _ _ body, site => by
    simp only [Stmt.occurrences, Stmt.idents, Param.occurrences, List.map_cons, List.map_append,
      List.map_map]
    exact ((List.Perm.refl _).append (Stmt.occurrencesAll_perm body _)).cons name
  | .assign _ targets values, site => by
    simp only [Stmt.occurrences, Stmt.idents, List.map_append, Target.occurrences_names,
      Expr.occurrencesAll_names]
    exact List.perm_append_comm
  | .print _ value, site | .ret _ (some value), site => by
    simp [Stmt.occurrences, Stmt.idents, value.occurrences_names]
  | .alternative _ guards, site | .iterative _ guards, site => by
    simp only [Stmt.occurrences, Stmt.idents]
    exact Guard.occurrencesAll_perm guards site
  | .block _ block body, site => by
    simp only [Stmt.occurrences, Stmt.idents]
    exact Stmt.occurrencesAll_perm body _
  | .ret _ none, _ => by simp [Stmt.occurrences, Stmt.idents]
  | .call _ _ args, site => by
    simp [Stmt.occurrences, Stmt.idents, Expr.occurrencesAll_names]

theorem Stmt.occurrencesAll_perm : (ss : List Stmt) → (site : Site) →
    ((Stmt.occurrencesAll site ss).map Occurrence.name).Perm (Stmt.identsAll ss)
  | [], _ => by simp [Stmt.occurrencesAll, Stmt.identsAll]
  | s :: ss, site => by
    simp only [Stmt.occurrencesAll, Stmt.identsAll, List.map_append]
    exact (Stmt.occurrences_perm s site).append (Stmt.occurrencesAll_perm ss site)

theorem Guard.occurrencesAll_perm : (gs : List Guard) → (site : Site) →
    ((Guard.occurrencesAll site gs).map Occurrence.name).Perm (Guard.identsAll gs)
  | [], _ => by simp [Guard.occurrencesAll, Guard.identsAll]
  | .mk _ cond body :: gs, site => by
    simp only [Guard.occurrencesAll, Guard.identsAll, List.map_append, cond.occurrences_names]
    exact ((Stmt.occurrences_perm body site).append_left _).append (Guard.occurrencesAll_perm gs site)

end

namespace Occurrence

/-- Something of this name was declared in a scope around the occurrence. -/
def Sees (o d : Occurrence) : Prop :=
  d.name.name = o.name.name ∧ d.site.scopes <:+ o.site.scopes

instance (o d : Occurrence) : Decidable (o.Sees d) :=
  inferInstanceAs (Decidable (_ ∧ _))

/-- The occurrence declares its name, after these declarations. -/
def Declares (o : Occurrence) (decls : List Occurrence) : Prop :=
  o.role.isDeclaration = true ∨ o.role = .assigned ∧ ∀ d ∈ decls, ¬o.Sees d

instance (o : Occurrence) (decls : List Occurrence) : Decidable (o.Declares decls) :=
  inferInstanceAs (Decidable (_ ∨ _))

end Occurrence

/-- The declarations so far, and those among occurrences that follow. -/
def declarations (decls : List Occurrence) : List Occurrence → List Occurrence
  | [] => decls
  | o :: os => declarations (if o.Declares decls then decls ++ [o] else decls) os

theorem declarations_declares {o : Occurrence} {decls : List Occurrence} (h : o.Declares decls) :
    declarations decls [o] = decls ++ [o] := by
  rw [declarations, declarations, if_pos h]

theorem declarations_refers {o : Occurrence} {decls : List Occurrence} (h : ¬o.Declares decls) :
    declarations decls [o] = decls := by
  rw [declarations, declarations, if_neg h]

theorem declarations_append (decls xs ys : List Occurrence) :
    declarations decls (xs ++ ys) = declarations (declarations decls xs) ys := by
  induction xs generalizing decls with
  | nil => rfl
  | cons o xs ih => exact ih _

/-- Declarations only come to be. -/
theorem le_declarations (decls os : List Occurrence) : decls <+: declarations decls os := by
  induction os generalizing decls with
  | nil => exact List.prefix_refl _
  | cons o os ih =>
    rw [declarations]
    split
    · exact (List.prefix_append _ _).trans (ih _)
    · exact ih _

end Guarded
