import Guarded.Proofs.Symbolic

/-!
How far symbolic code jumps. The jumps of a statement lead to its own instructions or right behind
it. Those of an expression only lead on, and nothing in an expression ends an activation. Apart from
jumps and symbols, code names nothing.
-/

namespace Guarded

namespace Instr

/-- An instruction that names no storage, no routine and no place in the code. -/
def isNameless : Instr → Bool
  | iload _ | fload _ | aload _ | istore _ | fstore _ | astore _ => false
  | getstatic _ | putstatic _ => false
  | branch .. | branchCompare .. | goto _ | invoke _ => false
  | _ => true

/-- Instructions that end an activation. -/
def isReturn : Instr → Bool
  | ireturn | freturn | ret => true
  | _ => false

/-- An instruction that names nothing, goes on to the next and does not leave the order of two
floats. -/
def isInterior : Instr → Bool
  | fcmpl | fcmpg => false
  | i => i.isNameless && !i.isReturn

theorem target?_of_isNameless {i : Instr} (plain : i.isNameless = true) : i.target? = none := by
  cases i <;> first | rfl | cases plain

end Instr

namespace Op

/-- Each item of the code has a property that depends on how many instructions there are before it
and after it, where `lead` and `room` of them are not of this code. -/
def Each (P : Nat → Nat → Op → Prop) (lead room : Nat) : List Op → Prop
  | [] => True
  | op :: ops => P lead (sizeAll ops + room) op ∧ Each P (lead + op.size) room ops

section
variable {P Q : Nat → Nat → Op → Prop} {lead lead' room room' : Nat} {xs ys : List Op}

theorem each_append : Each P lead room (xs ++ ys) ↔
    Each P lead (sizeAll ys + room) xs ∧ Each P (lead + sizeAll xs) room ys := by
  induction xs generalizing lead with
  | nil => simp [Each]
  | cons x xs ih => simp [Each, ih, Nat.add_assoc, and_assoc]

/-- An item that stands somewhere in the code. -/
theorem Each.item {op : Op} (h : Each P lead room (xs ++ op :: ys)) :
    P (lead + sizeAll xs) (sizeAll ys + room) op :=
  (each_append.mp h).2.1

/-- Code may stand among more code. -/
theorem Each.widen (h : Each P lead room xs)
    (wider : ∀ {b b' c c' op}, b ≤ b' → c ≤ c' → P b c op → Q b' c' op) (before : lead ≤ lead')
    (after : room ≤ room') : Each Q lead' room' xs := by
  induction xs generalizing lead lead' with
  | nil => trivial
  | cons x xs ih =>
    exact ⟨wider before (Nat.add_le_add_left after _) h.1,
      ih h.2 (Nat.add_le_add_right before _)⟩

end

/-- A jump may go back over all instructions before it and on over all after it. -/
def Within (before after : Nat) : Op → Prop
  | .jump _ distance => -(before : Int) ≤ distance ∧ distance ≤ after
  | .instr i => i.isNameless = true
  | _ => True

/-- A jump only goes on. The order of two floats is not the last that is computed: there are more
instructions than the one behind the code. -/
def Advances (after : Nat) : Op → Prop
  | .jump _ distance => 0 ≤ distance ∧ distance ≤ after
  | .instr i => i.isNameless = true ∧ i.isReturn = false ∧ (i = .fcmpl ∨ i = .fcmpg → 1 < after)
  | _ => True

/-- No jump goes further than to `lead` instructions before the code or `room` instructions past its
last. -/
abbrev Contained (lead room : Nat) : List Op → Prop :=
  Each Within lead room

/-- Code that only goes on, up to the instruction right behind it. -/
abbrev Onward : List Op → Prop :=
  Each (fun _ => Advances) 0 1

theorem Within.widen {b b' c c' : Nat} {op : Op} (before : b ≤ b') (after : c ≤ c')
    (h : op.Within b c) : op.Within b' c' := by
  cases op with
  | jump j d =>
    obtain ⟨low, high⟩ := h
    constructor <;> omega
  | instr => exact h
  | load | store | invoke | method | fault => trivial

theorem Advances.widen {c c' : Nat} {op : Op} (after : c ≤ c') (h : op.Advances c) :
    op.Advances c' := by
  cases op with
  | jump j d => exact ⟨h.1, Int.le_trans h.2 (Int.ofNat_le.mpr after)⟩
  | instr => exact ⟨h.1, h.2.1, fun orders => Nat.lt_of_lt_of_le (h.2.2 orders) after⟩
  | load | store | invoke | method | fault => trivial

theorem Advances.within {b c : Nat} {op : Op} (h : op.Advances c) : op.Within b c := by
  cases op with
  | jump j d =>
    obtain ⟨low, high⟩ := h
    constructor <;> omega
  | instr => exact h.1
  | load | store | invoke | method | fault => trivial

namespace Contained
variable {lead lead' : Nat} {xs ys : List Op}

theorem mono (h : Contained lead 1 xs) (before : lead ≤ lead') {room : Nat} (after : 1 ≤ room) :
    Contained lead' room xs :=
  h.widen Within.widen before after

theorem append (first : Contained lead 1 xs) (second : Contained (lead + sizeAll xs) 1 ys) :
    Contained lead 1 (xs ++ ys) :=
  each_append.mpr ⟨first.mono (Nat.le_refl _) (Nat.le_add_left 1 _), second⟩

theorem jump {j : Jump} {distance : Int} (back : -(lead : Int) ≤ distance)
    (ahead : distance ≤ sizeAll xs + 1) (h : Contained (lead + 1) 1 xs) :
    Contained lead 1 (.jump j distance :: xs) :=
  ⟨⟨back, ahead⟩, h⟩

/-- Two pieces whose jumps stay in them. -/
theorem join (first : Contained 0 1 xs) (second : Contained 0 1 ys) : Contained 0 1 (xs ++ ys) :=
  first.append (second.mono (Nat.zero_le _) (Nat.le_refl 1))

end Contained

namespace Onward
variable {xs ys : List Op}

theorem append (first : Onward xs) (second : Onward ys) : Onward (xs ++ ys) :=
  each_append.mpr ⟨first.widen (fun _ => Advances.widen) (Nat.le_refl 0) (Nat.le_add_left 1 _),
    second.widen (fun _ => Advances.widen) (Nat.zero_le _) (Nat.le_refl 1)⟩

theorem contained {lead : Nat} (h : Onward xs) : Contained lead 1 xs :=
  h.widen (fun _ after advances => (advances.widen after).within) (Nat.zero_le _) (Nat.le_refl 1)

theorem instr {i : Instr} (plain : i.isInterior = true) : Onward [.instr i] := by
  cases i <;> first | cases plain; done | exact ⟨⟨rfl, rfl, by simp⟩, trivial⟩

theorem load (id : SymbolId) : Onward [.load id] := ⟨trivial, trivial⟩

theorem flatMap {α : Type} {f : α → List Op} (each : ∀ x, Onward (f x)) :
    (xs : List α) → Onward (xs.flatMap f)
  | [] => trivial
  | x :: xs => by
    rw [List.flatMap_cons]
    exact (each x).append (flatMap each xs)

end Onward

end Op

namespace Analysis
variable {a : Analysis} {here : Option SymbolId}

open Op (Contained Onward)

theorem withSymbol_onward {name : Ident} {code : SymbolId → List Op}
    (each : ∀ id, Onward (code id)) : Onward (a.withSymbol name code) := by
  unfold withSymbol
  split
  · exact each _
  · exact ⟨trivial, trivial⟩

theorem cast_onward (s t : Ty) : Onward (cast s t) := by
  unfold cast
  split
  · exact .instr rfl
  · exact .instr rfl
  · trivial

theorem truth_onward (j : Jump) : Onward (truth j) := by
  refine ⟨?_, ⟨rfl, rfl, by simp⟩, ?_, ⟨rfl, rfl, by simp⟩, trivial⟩
  · simp [Op.Advances, Op.size]
  · simp [Op.Advances, Op.size]

/-- The order of two floats is tested at once. -/
theorem floatCompare_onward (cond : Cond) (j : Jump) :
    Onward ([.instr (floatCompare cond)] ++ truth j) := by
  refine ⟨⟨?_, ?_, fun _ => by simp [truth, Op.size]⟩,
    (truth_onward j).widen (fun _ => Op.Advances.widen) (Nat.zero_le _) (Nat.le_refl 1)⟩
  all_goals cases cond <;> rfl

mutual

/-- The code of an expression only goes on. -/
theorem lowerExpr_onward : (e : Expr) → (needed : Ty) → Onward (a.lowerExpr needed e)
  | .int .., _ | .float .., _ => by
    simp only [lowerExpr]
    refine .instr ?_
    split <;> rfl
  | .bool .., _ => by
    simp only [lowerExpr]
    exact .instr rfl
  | .paren _ inner, needed => by
    simp only [lowerExpr]
    exact lowerExpr_onward inner needed
  | .var .., _ => by
    simp only [lowerExpr]
    exact (withSymbol_onward .load).append (cast_onward ..)
  | .index node _ i, _ => by
    have access :
        Instr.isInterior (if a.typeOf node.id = .float then .faload else .iaload) = true := by
      split <;> rfl
    simp only [lowerExpr]
    exact (((withSymbol_onward .load).append (lowerExpr_onward i .int)).append
      (.instr access)).append (cast_onward ..)
  | .call _ _ args, _ => by
    simp only [lowerExpr]
    refine (withSymbol_onward fun id => ?_).append (cast_onward ..)
    exact (lowerArgs_onward args (a.paramTypes id)).append ⟨trivial, trivial⟩
  | .unary node .neg operand, _ => by
    have negate : Instr.isInterior (if a.typeOf node.id = .float then .fneg else .ineg) = true := by
      split <;> rfl
    simp only [lowerExpr]
    exact ((lowerExpr_onward operand _).append (.instr negate)).append (cast_onward ..)
  | .unary _ .not operand, _ => by
    simp only [lowerExpr]
    exact ((lowerExpr_onward operand _).append (truth_onward _)).append (cast_onward ..)
  | .binary _ op lhs rhs, _ => by
    have both (left right : Ty) {code : List Op} (last : Onward code) :
        Onward (a.lowerExpr left lhs ++ a.lowerExpr right rhs ++ code) :=
      ((lowerExpr_onward lhs left).append (lowerExpr_onward rhs right)).append last
    simp only [lowerExpr]
    refine Onward.append ?_ (cast_onward ..)
    cases op
    case lt | gt | le | ge | eq | ne =>
      dsimp only
      split
      · rw [List.append_assoc]
        exact both _ _ (floatCompare_onward ..)
      · exact both _ _ (truth_onward _)
    case add | sub | mul =>
      refine both _ _ (.instr ?_)
      cases decide (a.typeOf _ = .float) <;> rfl
    all_goals exact both _ _ (.instr rfl)

theorem lowerArgs_onward :
    (args : List Expr) → (tys : List Ty) → Onward (a.lowerArgs args tys)
  | [], _ | _ :: _, [] => by
    simp only [lowerArgs]
    trivial
  | arg :: args, ty :: tys => by
    simp only [lowerArgs]
    exact (lowerExpr_onward arg ty).append (lowerArgs_onward args tys)

end

theorem withSymbol_size_pos {name : Ident} {code : SymbolId → List Op}
    (each : ∀ id, 0 < Op.sizeAll (code id)) : 0 < Op.sizeAll (a.withSymbol name code) := by
  unfold withSymbol
  split
  · exact each _
  · exact Nat.one_pos

/-- An expression has code. -/
theorem lowerExpr_size_pos : (e : Expr) → (needed : Ty) → 0 < Op.sizeAll (a.lowerExpr needed e)
  | .int .., _ | .float .., _ | .bool .., _ => by simp [lowerExpr, Op.size]
  | .paren _ inner, needed => by
    simp only [lowerExpr]
    exact lowerExpr_size_pos inner needed
  | .var _ name, _ => by
    have load : 0 < Op.sizeAll (a.withSymbol name fun id => [.load id]) :=
      withSymbol_size_pos fun _ => Nat.one_pos
    simp only [lowerExpr, Op.sizeAll_append]
    omega
  | .call _ callee args, _ => by
    have call : 0 < Op.sizeAll (a.withSymbol callee fun id =>
        a.lowerArgs args (a.paramTypes id) ++ [.invoke id]) :=
      withSymbol_size_pos fun _ => by simp [Op.size]
    simp only [lowerExpr, Op.sizeAll_append]
    omega
  | .index .., _ | .unary _ .neg _, _ | .unary _ .not _, _ => by
    simp only [lowerExpr, truth, Op.sizeAll_append, Op.sizeAll_cons, Op.size]
    omega
  | .binary _ op lhs rhs, _ => by
    simp only [lowerExpr, Op.sizeAll_append]
    refine Nat.add_pos_left ?_ _
    have left := lowerExpr_size_pos lhs
    cases op
    case lt | gt | le | ge | eq | ne =>
      dsimp only
      split <;>
      · simp only [Op.sizeAll_append]
        have := left .float
        have := left .int
        omega
    all_goals
      simp only [Op.sizeAll_append]
      exact Nat.add_pos_left (Nat.add_pos_left (left _) _) _

theorem lowerArrays_onward (ty : Ty) (size : Expr) (names : List Ident) :
    Onward (a.lowerArrays ty size names) := by
  refine .flatMap (fun name => withSymbol_onward fun id => ?_) names
  exact (lowerExpr_onward size .int).append ⟨⟨rfl, rfl, by simp⟩, trivial, trivial⟩

theorem lowerSource_onward (target : Target) (value : Expr) :
    Onward (a.lowerSource target value) := by
  cases target with
  | var name => exact withSymbol_onward fun id => lowerExpr_onward value _
  | index array i =>
    refine withSymbol_onward fun id => ?_
    exact ((Onward.load id).append (lowerExpr_onward i .int)).append (lowerExpr_onward value _)

theorem lowerStore_onward (target : Target) : Onward (a.lowerStore target) := by
  cases target with
  | var name => exact withSymbol_onward fun id => ⟨trivial, trivial⟩
  | index array i =>
    refine withSymbol_onward fun id => .instr ?_
    split <;> rfl

theorem lowerInput_onward (names : List Ident) : Onward (a.lowerInput names) := by
  refine .flatMap (fun name => withSymbol_onward fun id => ?_) names
  exact ⟨⟨rfl, rfl, by simp⟩, ⟨rfl, rfl, by simp⟩, trivial, trivial⟩

theorem lowerReturn_contained (value : Option Expr) :
    Contained 0 1 (a.lowerReturn here value) := by
  unfold lowerReturn
  split
  · exact ⟨rfl, trivial⟩
  · split
    · exact ⟨trivial, trivial⟩
    · refine (lowerExpr_onward ..).contained.join ⟨?_, trivial⟩
      split <;> rfl

/-- The end of a method has no jumps. -/
theorem lowerEnd_contained (method : SymbolId) (line lead : Nat) :
    Contained lead 0 (a.lowerEnd method line) := by
  unfold lowerEnd
  split
  · split <;> exact ⟨rfl, rfl, rfl, rfl, trivial⟩
  · exact ⟨rfl, trivial⟩

theorem lowerEnd_size_pos (method : SymbolId) (line : Nat) :
    1 ≤ Op.sizeAll (a.lowerEnd method line) := by
  unfold lowerEnd
  split
  · rw [Op.sizeAll_append]
    simp only [Op.sizeAll_cons, Op.size]
    omega
  · simp [Op.size]

mutual

/-- The jumps of a statement lead to its own instructions or right behind it. -/
theorem lowerStmt_contained :
    (s : Stmt) → (here : Option SymbolId) → Contained 0 1 (a.lowerStmt here s)
  | .varDecl .., _ => by
    simp only [lowerStmt]
    trivial
  | .arrayDecl _ ty size names, _ => by
    simp only [lowerStmt]
    exact (lowerArrays_onward ty size names).contained
  | .method .., _ => by
    simp only [lowerStmt]
    refine (withSymbol_onward fun _ => ?_).contained
    exact ⟨trivial, trivial⟩
  | .assign _ targets values, _ => by
    simp only [lowerStmt, lowerAssign]
    exact (Onward.append (.flatMap (fun (t, v) => lowerSource_onward t v) _)
      (.flatMap lowerStore_onward _)).contained
  | .input _ names, _ => by
    simp only [lowerStmt]
    exact (lowerInput_onward names).contained
  | .print _ value, _ => by
    simp only [lowerStmt, lowerPrint]
    exact ((lowerExpr_onward value _).append (.instr rfl)).contained
  | .alternative _ gs, here => by
    simp only [lowerStmt]
    exact lowerChoice_contained gs here _
  | .iterative _ gs, here => by
    simp only [lowerStmt]
    exact lowerLoop_contained gs here 0
  | .block _ _ body, here => by
    simp only [lowerStmt]
    exact lowerStmts_contained body here
  | .ret _ value, _ => by
    simp only [lowerStmt]
    exact lowerReturn_contained value
  | .call _ _ args, _ => by
    simp only [lowerStmt, lowerCall]
    refine (withSymbol_onward fun id => ?_).contained
    exact (lowerArgs_onward args (a.paramTypes id)).append ⟨trivial, trivial⟩

theorem lowerStmts_contained :
    (ss : List Stmt) → (here : Option SymbolId) → Contained 0 1 (a.lowerStmts here ss)
  | [], _ => by
    simp only [lowerStmts]
    trivial
  | s :: ss, here => by
    simp only [lowerStmts]
    exact (lowerStmt_contained s here).join (lowerStmts_contained ss here)

theorem lowerChoice_contained : (gs : List Guard) → (here : Option SymbolId) → (line : Int32) →
    Contained 0 1 (a.lowerChoice here line gs)
  | [], _, _ => by
    simp only [lowerChoice]
    exact ⟨rfl, rfl, trivial⟩
  | .mk _ cond body :: gs, here, line => by
    simp only [lowerChoice, List.append_assoc, List.cons_append, List.nil_append]
    apply (lowerExpr_onward cond .boolean).contained.join
    apply Contained.jump
    · omega
    · simp only [Op.sizeAll_append, Op.sizeAll_cons, Op.size]
      omega
    apply ((lowerStmt_contained body here).mono (Nat.zero_le _) (Nat.le_refl 1)).append
    apply Contained.jump
    · omega
    · omega
    exact (lowerChoice_contained gs here line).mono (Nat.zero_le _) (Nat.le_refl 1)

/-- A loop goes back to the start of its first guard. -/
theorem lowerLoop_contained : (gs : List Guard) → (here : Option SymbolId) → (before : Nat) →
    Contained before 1 (a.lowerLoop here before gs)
  | [], _, _ => by
    simp only [lowerLoop]
    trivial
  | .mk _ cond body :: gs, here, before => by
    simp only [lowerLoop, List.append_assoc, List.cons_append, List.nil_append]
    apply (lowerExpr_onward cond .boolean).contained.append
    apply Contained.jump
    · omega
    · simp only [Op.sizeAll_append, Op.sizeAll_cons, Op.size]
      omega
    apply ((lowerStmt_contained body here).mono (Nat.zero_le _) (Nat.le_refl 1)).append
    apply Contained.jump
    · omega
    · omega
    exact lowerLoop_contained gs here _

end

/-- No jump of a program goes past its last instruction. -/
theorem lower_contained (p : Program) : Contained 0 0 (a.lower p) := by
  refine Op.each_append.mpr ⟨?_, rfl, trivial⟩
  exact (lowerStmts_contained p.body none).mono (Nat.le_refl 0) (Nat.le_refl 1)

/-- No jump of a method goes past its last instruction. -/
theorem lowerMethod_contained (body : List Stmt) (method : SymbolId) (line : Nat) :
    Contained 0 0 (a.lowerStmts (some method) body ++ a.lowerEnd method line) :=
  Op.each_append.mpr ⟨(lowerStmts_contained body _).mono (Nat.le_refl 0) (lowerEnd_size_pos ..),
    lowerEnd_contained ..⟩

end Analysis

end Guarded
