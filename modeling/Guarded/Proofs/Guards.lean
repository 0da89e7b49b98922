import Guarded.Proofs.Control
import Guarded.Proofs.Locations

/-!
Guarded commands as the machine carries them out. The conditions of a choice or a loop are computed
one after another up to the first that is true, and then the body of that guard is carried out and no
other. A body that is done goes on after the choice, or back to the first condition of the loop. If
no condition is true, no body is carried out: a choice ends the run with the line of its keyword, and
a loop is over.

This is said of every run of every compiled program, whatever else is in the bodies and whatever the
conditions call.
-/

namespace Guarded

section Trying
variable {σ : Type} (host : Machine.Host σ) (q : Spot)

/-- A body is carried out. If it comes to its end, control goes on to `target`. -/
def Spot.Performs (lo hi target : Nat) (c : Machine × σ) : Prop :=
  q.Remains host lo hi c ∨ q.Returns host lo hi c ∨
    ∃ stack mem h, q.Crosses host lo hi c (q.machine hi stack mem, h) ∧
      Machine.advance host (q.machine hi stack mem, h) = .inl (q.machine target stack mem, h)

/-- Guards are tried from a position on. A condition may never be done with. If it is true, the body
of the guard comes next and then `target`; if it is false, the next guard. After the last guard comes
what `last` says. -/
def Guard.Tried (a : Analysis) (here : Option SymbolId) (target : Nat)
    (last : Machine × σ → Prop) : List Guard → Nat → Machine × σ → Prop
  | [], _, c => last c
  | .mk _ cond body :: gs, pos, c =>
    let test := pos + Op.sizeAll (a.lowerExpr .boolean cond)
    let done := test + 1 + Op.sizeAll (a.lowerStmt here body)
    q.Remains host pos test c ∨ ∃ b stack mem h,
      let tested := (q.machine test (.ofBool b :: stack) mem, h)
      let chosen := (q.machine (test + 1) stack mem, h)
      let passed := (q.machine (done + 1) stack mem, h)
      q.Crosses host pos test c tested ∧
        if b then
          Machine.advance host tested = .inl chosen ∧ q.Performs host (test + 1) done target chosen
        else
          Machine.advance host tested = .inl passed ∧ Tried a here target last gs (done + 1) passed

end Trying

section Runs
variable {σ : Type} {host : Machine.Host σ} {u : ObjectUnit} {types : List Slot} {q : Spot}
variable {a : Analysis} {places : Places} {here : Option SymbolId} {pos lo hi : Nat}
variable {c c' : Machine × σ}

theorem Spot.Travels.conforms (travels : q.Travels host lo hi c c') (unitTyped : u.Typed)
    (conforms : c.1.Conforms u types) : ∃ types', c'.1.Conforms u types' := by
  obtain ⟨n, run, -⟩ := travels
  exact conforms.after unitTyped run

theorem Spot.advance_test {pc target : Nat} (host : Machine.Host σ) (b : Bool) (stack : List Value)
    (mem : Memory) (h : σ) (found : q.routine.code[pc]? = some (.branch .eq target)) :
    Machine.advance host (q.machine pc (.ofBool b :: stack) mem, h) =
      .inl (q.machine (if b then pc + 1 else target) stack mem, h) := by
  cases b <;> exact Spot.advance_instr found nofun rfl

/-- The code of a condition leaves a truth value at its end, if it gets there. -/
theorem Expr.tested {cond : Expr} (unitTyped : u.Typed) (same : q.unit = u)
    (conforms : c.1.Conforms u types) (at_ : q.At pos c.1)
    (code : Op.CodeAt a places q.routine.code pos (a.lowerExpr .boolean cond)) {target : Nat}
    (branch : q.routine.code[pos + Op.sizeAll (a.lowerExpr .boolean cond)]? =
      some (.branch .eq target)) :
    q.Remains host pos (pos + Op.sizeAll (a.lowerExpr .boolean cond)) c ∨
      ∃ b stack mem h types', (q.machine (pos + Op.sizeAll (a.lowerExpr .boolean cond))
          (.ofBool b :: stack) mem).Conforms u types' ∧
        q.Crosses host pos (pos + Op.sizeAll (a.lowerExpr .boolean cond)) c
          (q.machine (pos + Op.sizeAll (a.lowerExpr .boolean cond)) (.ofBool b :: stack) mem, h) := by
  have onward := a.lowerExpr_onward cond .boolean
  have confines := code.confines onward.contained
  rcases Spot.passes unitTyped conforms same confines (Nat.le_add_right ..) at_ with
    remains | ⟨⟨m, h⟩, travels, arrived⟩ | ⟨-, pc, i, low, high, found, returns⟩
  · exact Or.inl remains
  · obtain ⟨types', conforms'⟩ := travels.conforms unitTyped conforms
    obtain ⟨stack, mem, rfl⟩ := arrived.eq_machine (conforms'.unit.trans same.symm)
    obtain ⟨shape, own, rest, rfl, fits, safe⟩ := conforms'.operands
    have alone := code.not_compared_of_onward onward (a.lowerExpr_size_pos cond .boolean)
    obtain ⟨more, rfl⟩ := safe.allows.of_branch branch alone
    obtain _ | ⟨holds, others⟩ := fits
    obtain ⟨b, rfl⟩ := Slot.single_boolean.mp holds
    exact Or.inr ⟨b, _, mem, h, types', conforms', travels, arrived⟩
  · rw [code.stays_of_onward onward low high found] at returns
    cases returns

/-- A body that is done goes to its target. -/
theorem Stmt.performed {body : Stmt} (unitTyped : u.Typed) (same : q.unit = u)
    (conforms : c.1.Conforms u types) (at_ : q.At pos c.1)
    (code : Op.CodeAt a places q.routine.code pos (a.lowerStmt here body)) {target : Nat}
    (leaves : q.routine.code[pos + Op.sizeAll (a.lowerStmt here body)]? = some (.goto target)) :
    q.Performs host pos (pos + Op.sizeAll (a.lowerStmt here body)) target c := by
  have confines := code.confines (a.lowerStmt_contained body here)
  rcases Spot.passes unitTyped conforms same confines (Nat.le_add_right ..) at_ with
    remains | ⟨⟨m, h⟩, travels, arrived⟩ | ⟨returns, -⟩
  · exact Or.inl remains
  · obtain ⟨types', conforms'⟩ := travels.conforms unitTyped conforms
    obtain ⟨stack, mem, rfl⟩ := arrived.eq_machine (conforms'.unit.trans same.symm)
    exact Or.inr (Or.inr ⟨stack, mem, h, ⟨travels, arrived⟩,
      Spot.advance_instr leaves nofun rfl⟩)
  · exact Or.inr (Or.inl returns)

theorem Guard.StandAt.tried (unitTyped : u.Typed) (same : q.unit = u) {target stop : Nat}
    {last : Machine × σ → Prop}
    (ended : ∀ c types, Machine.Conforms u types c.1 → q.At stop c.1 → last c) :
    {gs : List Guard} → {pos : Nat} → {c : Machine × σ} → {types : List Slot} →
    Guard.StandAt a places here q.routine.code target gs pos stop → c.1.Conforms u types →
    q.At pos c.1 → Guard.Tried host q a here target last gs pos c
  | [], pos, c, types, stands, conforms, at_ => by
    obtain rfl : pos = stop := stands
    exact ended c types conforms at_
  | .mk _ cond body :: gs, pos, c, types, ⟨tests, branch, code, leaves, stands⟩, conforms, at_ => by
    rcases cond.tested unitTyped same conforms at_ tests branch with
      remains | ⟨b, stack, mem, h, types', conforms', crosses⟩
    · exact Or.inl remains
    · refine Or.inr ⟨b, stack, mem, h, crosses, ?_⟩
      have next := Spot.advance_test host b stack mem h branch
      obtain ⟨types'', conforms''⟩ := conforms'.advance unitTyped next
      cases b with
      | true =>
        exact ⟨next, body.performed unitTyped same conforms'' (Spot.at_machine ..) code leaves⟩
      | false =>
        exact ⟨next, StandAt.tried unitTyped same ended stands conforms'' (Spot.at_machine ..)⟩

end Runs

section Positions
variable {a : Analysis} {places : Places}

/-- The code of a statement stands in one of some routines. -/
def Stmt.StandsIn (a : Analysis) (places : Places) (rs : List Routine) (s : Stmt) : Prop :=
  ∃ here, ∃ r ∈ rs, ∃ pos, Op.CodeAt a places r.code pos (a.lowerStmt here s)

/-- Each of the methods has one of the routines. -/
def Method.StandIn (a : Analysis) (places : Places) (rs : List Routine) (ms : List Method) : Prop :=
  ∀ m ∈ ms, ∃ r ∈ rs, Op.CodeAt a places r.code 0 (a.compiled m).2

variable {rs : List Routine}

mutual

/-- With a statement stand the statements inside it: in the same routine, or in that of a method that
is declared there. -/
theorem Stmt.inner_stand {r : Routine} {here : Option SymbolId} {pos : Nat} (inside : r ∈ rs) :
    (s : Stmt) → Op.CodeAt a places r.code pos (a.lowerStmt here s) →
      Method.StandIn a places rs s.methods → ∀ s' ∈ s.inner, s'.StandsIn a places rs
  | .method _ name params result _ body, _, housed, s', mem => by
    obtain ⟨r', inside', code⟩ := housed ⟨name, params, result, body⟩ List.mem_cons_self
    exact Stmt.innerAll_stand inside' body (Op.codeAt_append.mp code).1
      (fun m mem => housed m (List.mem_cons_of_mem _ mem)) s' mem
  | .block _ _ body, code, housed, s', mem => by
    rw [Analysis.lowerStmt] at code
    exact Stmt.innerAll_stand inside body code housed s' mem
  | .alternative _ guards, code, housed, s', mem => by
    rw [Analysis.lowerStmt] at code
    obtain ⟨stop, stands, -⟩ := Analysis.lowerChoice_stands _ guards pos code
    exact Guard.innerAll_stand inside guards stands housed s' mem
  | .iterative _ guards, code, housed, s', mem => by
    rw [Analysis.lowerStmt] at code
    have stands := Analysis.lowerLoop_stands pos guards 0 code
    exact Guard.innerAll_stand inside guards stands housed s' mem
  | .varDecl .., _, _, _, mem | .arrayDecl .., _, _, _, mem | .assign .., _, _, _, mem
  | .input .., _, _, _, mem | .print .., _, _, _, mem | .ret .., _, _, _, mem
  | .call .., _, _, _, mem => by simp [Stmt.inner] at mem

theorem Stmt.innerAll_stand {r : Routine} {here : Option SymbolId} {pos : Nat} (inside : r ∈ rs) :
    (ss : List Stmt) → Op.CodeAt a places r.code pos (a.lowerStmts here ss) →
      Method.StandIn a places rs (Stmt.methodsAll ss) → ∀ s' ∈ Stmt.innerAll ss, s'.StandsIn a places rs
  | [], _, _, _, mem => by simp [Stmt.innerAll] at mem
  | s :: ss, code, housed, s', mem => by
    rw [Analysis.lowerStmts, Op.codeAt_append] at code
    obtain ⟨housedFirst, housedRest⟩ := List.forall_mem_append.mp housed
    rcases List.mem_cons.mp mem with rfl | mem
    · exact ⟨here, r, inside, pos, code.1⟩
    · rcases List.mem_append.mp mem with mem | mem
      · exact Stmt.inner_stand inside s code.1 housedFirst s' mem
      · exact Stmt.innerAll_stand inside ss code.2 housedRest s' mem

theorem Guard.innerAll_stand {r : Routine} {here : Option SymbolId} {pos target stop : Nat}
    (inside : r ∈ rs) : (gs : List Guard) → Guard.StandAt a places here r.code target gs pos stop →
      Method.StandIn a places rs (Guard.methodsAll gs) →
        ∀ s' ∈ Guard.innerAll gs, s'.StandsIn a places rs
  | [], _, _, _, mem => by simp [Guard.innerAll] at mem
  | .mk _ cond body :: gs, ⟨_, _, code, _, stands⟩, housed, s', mem => by
    obtain ⟨housedBody, housedRest⟩ := List.forall_mem_append.mp housed
    rcases List.mem_cons.mp mem with rfl | mem
    · exact ⟨here, r, inside, _, code⟩
    · rcases List.mem_append.mp mem with mem | mem
      · exact Stmt.inner_stand inside body code housedBody s' mem
      · exact Guard.innerAll_stand inside gs stands housedRest s' mem

end

/-- Every statement of a program has code in the unit. -/
theorem Program.Compiled.stmts_stand {p : Program} {u : ObjectUnit}
    (compiled : p.Compiled a places u) :
    ∀ s ∈ p.stmts, s.StandsIn a places (u.entry :: u.routines.toList) := by
  have code := (Op.codeAt_append.mp compiled.code).1
  refine Stmt.innerAll_stand List.mem_cons_self p.body code fun m mem => ?_
  obtain ⟨r, laid, found⟩ := compiled.routines m mem
  have known : r ∈ u.routines.toList := by
    rw [Array.findRev?_eq_find?_reverse] at found
    simpa using Array.mem_of_find?_eq_some found
  exact ⟨r, List.mem_cons_of_mem _ known, laid.code⟩

end Positions

section Keywords

/-- The region is one of these, or is in one of them. -/
inductive Region.Occurs (r : Region) : List Region → Prop
  | here {rs : List Region} : Occurs r (r :: rs)
  | inner {s : Span} {parts rs : List Region} (occurs : Occurs r parts) :
    Occurs r (.node s parts :: rs)
  | later {q : Region} {rs : List Region} (occurs : Occurs r rs) : Occurs r (q :: rs)

namespace Region.Occurs
variable {r q : Region} {rs qs : List Region}

theorem left (occurs : Occurs r rs) : Occurs r (rs ++ qs) := by
  induction occurs with
  | here => exact .here
  | inner occurs => exact .inner occurs
  | later _ ih => exact .later ih

theorem right (occurs : Occurs r qs) : (rs : List Region) → Occurs r (rs ++ qs)
  | [] => occurs
  | _ :: rs => .later (right occurs rs)

end Region.Occurs

/-- A region in a layout covers some of the tokens. -/
theorem Region.Cover.occurs {r : Region} {rs : List Region} {ts : List Token} (cover : Cover rs ts)
    (occurs : Occurs r rs) : ∃ xs ⊆ ts, Cover [r] xs := by
  induction cover with
  | nil => cases occurs
  | @token t rs ts rest ih =>
    cases occurs with
    | here => exact ⟨[t], by simp, .token .nil⟩
    | later occurs =>
      obtain ⟨xs, inside, own⟩ := ih occurs
      exact ⟨xs, List.subset_cons_of_subset t inside, own⟩
  | @semicolon t rs ts kind rest ih =>
    cases occurs with
    | here => exact ⟨[], List.nil_subset _, .leftOut .nil⟩
    | later occurs =>
      obtain ⟨xs, inside, own⟩ := ih occurs
      exact ⟨xs, List.subset_cons_of_subset t inside, own⟩
  | leftOut rest ih =>
    cases occurs with
    | here => exact ⟨[], List.nil_subset _, .leftOut .nil⟩
    | later occurs => exact ih occurs
  | @node s parts rs xs ts inner spans rest ihInner ihRest =>
    cases occurs with
    | here => exact ⟨xs, List.subset_append_left .., .wrap inner spans⟩
    | inner occurs =>
      obtain ⟨ys, inside, own⟩ := ihInner occurs
      exact ⟨ys, List.subset_append_of_subset_left _ inside, own⟩
    | later occurs =>
      obtain ⟨ys, inside, own⟩ := ihRest occurs
      exact ⟨ys, List.subset_append_of_subset_right _ inside, own⟩

theorem Region.Cover.parts {s : Span} {rs : List Region} {ts : List Token}
    (cover : Cover [.node s rs] ts) : Cover rs ts := by
  cases cover with
  | node inner spans rest =>
    cases rest
    simpa using inner

/-- A layout that starts with a token covers tokens that start with it. -/
theorem Region.Cover.first_kind {k : Token.Kind} {rs : List Region} {ts : List Token}
    (cover : Cover (kind k :: rs) ts) : ∃ t, ts.head? = some t ∧ t.kind = k := by
  generalize layout : kind k :: rs = parts at cover
  cases cover with
  | nil => cases layout
  | @token t =>
    have mark : t.kind.mark = .kind k := (Region.token.inj (List.cons.inj layout).1).symm
    refine ⟨t, rfl, ?_⟩
    unfold Token.Kind.mark at mark
    split at mark
    · cases mark
    · exact Token.Mark.kind.inj mark
  | semicolon | leftOut | node => exact nomatch (List.cons.inj layout).1

mutual

theorem Stmt.inner_occurs : (s : Stmt) → ∀ s' ∈ s.inner, s'.region.Occurs [s.region]
  | .method _ _ _ _ _ body, s', mem =>
    .inner (.right (.inner (.later (Stmt.innerAll_occurs body s' mem).left)) _)
  | .block _ _ body, s', mem => .inner (.inner (.later (Stmt.innerAll_occurs body s' mem).left))
  | .alternative _ guards, s', mem | .iterative _ guards, s', mem =>
    .inner (.later (Guard.innerAll_occurs guards s' mem).left)
  | .varDecl .., _, mem | .arrayDecl .., _, mem | .assign .., _, mem | .input .., _, mem
  | .print .., _, mem | .ret .., _, mem | .call .., _, mem => by simp [Stmt.inner] at mem

theorem Stmt.innerAll_occurs : (ss : List Stmt) → ∀ s' ∈ Stmt.innerAll ss,
    s'.region.Occurs (Stmt.regions ss)
  | [], _, mem => by simp [Stmt.innerAll] at mem
  | s :: ss, s', mem => by
    rcases List.mem_cons.mp mem with rfl | mem
    · exact .here
    · rcases List.mem_append.mp mem with mem | mem
      · exact (Stmt.inner_occurs s s' mem).left
      · exact .later (.later (Stmt.innerAll_occurs ss s' mem))

theorem Guard.innerAll_occurs : (gs : List Guard) → ∀ s' ∈ Guard.innerAll gs,
    s'.region.Occurs (Guard.regions gs)
  | [], _, mem => by simp [Guard.innerAll] at mem
  | .mk _ _ body :: gs, s', mem => by
    rcases List.mem_cons.mp mem with rfl | mem
    · exact .inner (.later (.later .here))
    · rcases List.mem_append.mp mem with mem | mem
      · exact .inner (.later (.later (Stmt.inner_occurs body s' mem).left))
      · exact .later (Guard.innerAll_occurs gs s' mem)

end

/-- The keyword stands in the text where the statement starts, on the line of the statement. -/
def Node.StartsWith (source : String) (node : Node) (k : Token.Kind) : Prop :=
  ∃ t ∈ tokenize source, t.kind = k ∧ t.In source.toList ∧ node.span.start = t.span.start ∧
    node.span.line = t.span.line

/-- A choice starts with its keyword. -/
theorem Program.alternative_startsWith {source : String} {p : Program} (parsed : parse source = .ok p)
    {node : Node} {guards : List Guard} (mem : .alternative node guards ∈ p.stmts) :
    node.StartsWith source .if := by
  obtain ⟨ts, last, split, cut⟩ := tokenize_cut source
  obtain ⟨d, read⟩ := Cursor.program_of_parse parsed
  have cover := Cursor.program_cover cut (split ▸ read)
  have occurs : Region.Occurs (Stmt.region (.alternative node guards)) [p.region] :=
    .inner (.later (.later (Stmt.innerAll_occurs p.body _ mem)))
  obtain ⟨xs, inside, own⟩ := cover.occurs occurs
  obtain ⟨first, final, head, -, same⟩ := own.spans
  obtain ⟨t, head', isIf⟩ := own.parts.first_kind
  obtain rfl := Option.some.inj (head.symm.trans head')
  have known : first ∈ ts := inside (List.mem_of_head? head)
  refine ⟨first, by simp [split, known], isIf, cut.places first (by simp [known]), ?_, ?_⟩
  · rw [same]
  · rw [same]

end Keywords

/-- A line is its own operand unless it is too great for one. -/
theorem lineOperand_toInt (line : Nat) : (lineOperand line).toInt = min line 2147483647 := by
  rw [lineOperand, Int32.toInt_ofNat_of_lt (by omega)]

/-- The run ends with what the surroundings say to a choice without a true guard on this line. -/
def Machine.FailsAt {σ : Type} (host : Machine.Host σ) (line : Nat) (c : Machine × σ) : Prop :=
  ∃ e h, host (.abortNoAlternative (lineOperand line)) c.2 = .error e h ∧
    Machine.Ends host c (.error e h)

theorem Spot.fails {σ : Type} {host : Machine.Host σ} {a : Analysis} {places : Places} {q : Spot}
    {line stop : Nat} {c : Machine × σ}
    (code : Op.CodeAt a places q.routine.code stop
      [.instr (.iconst (lineOperand line)), .instr (.service .abortNoAlternative)])
    (at_ : q.At stop c.1) (same : c.1.unit = q.unit) : Machine.FailsAt host line c := by
  obtain ⟨m, h⟩ := c
  obtain ⟨stack, mem, rfl⟩ := at_.eq_machine same
  obtain ⟨_, pushes, rfl⟩ := code.1 rfl
  obtain ⟨_, asks, rfl⟩ := code.2.1 rfl
  replace asks : q.routine.code[stop + 1]? = some (.service .abortNoAlternative) := asks
  have pushed : Machine.Reaches host (q.machine stop stack mem, h)
      (q.machine (stop + 1) (.int (lineOperand line) :: stack) mem, h) :=
    Spot.reaches_instr pushes rfl rfl rfl
  cases answer : host (.abortNoAlternative (lineOperand line)) h with
  | ok reply h' => exact nomatch reply
  | error e h' =>
    refine ⟨e, h', answer, pushed.ends ⟨0, _, .refl _, ?_⟩⟩
    exact (Spot.advance_service asks rfl).trans (by rw [answer])

namespace Program

/-- Guarded commands take the first true guard. Every choice and every loop of a program has its code
in the unit, and whenever a run gets to the first instruction of that code, the guards are tried in
order: the body of the first guard that is true is carried out and no other, and no condition after
it is computed. Then the run goes on after the choice, or at the first condition of the loop. If no
guard is true, the loop is over, and the choice ends the run with the line of its keyword. -/
theorem guards_in_order {package source : String} {p : Program} {a : Analysis} {u : ObjectUnit}
    {places : Places} (parsed : parse source = .ok p) (analyzed : p.analyze = .ok a)
    (generated : a.generate package p = .ok (u, places)) {s : Stmt} (inside : s ∈ p.stmts) :
    s.StandsIn a places (u.entry :: u.routines.toList) ∧
    ∀ {σ : Type} (host : Machine.Host σ) (first : Machine) (h₀ h : σ) (n : Nat) (q : Spot)
      (pos : Nat) (stack : List Value) (mem : Memory) (here : Option SymbolId) (node : Node)
      (guards : List Guard), Machine.start u = .ok first →
      Machine.after host n (first, h₀) = some (q.machine pos stack mem, h) →
      Op.CodeAt a places q.routine.code pos (a.lowerStmt here s) →
      let stop := pos + Op.sizeAll (a.lowerStmt here s)
      (s = .alternative node guards →
        Guard.Tried host q a here stop (Machine.FailsAt host node.span.line) guards pos
            (q.machine pos stack mem, h) ∧
          node.StartsWith source .if ∧
          (lineOperand node.span.line).toInt = min node.span.line 2147483647 ∧
          ∀ console : Console, Console.answer (.abortNoAlternative (lineOperand node.span.line))
            console = .error (.noAlternative (lineOperand node.span.line)) console) ∧
      (s = .iterative node guards →
        Guard.Tried host q a here pos (fun c => q.At stop c.1) guards pos
          (q.machine pos stack mem, h)) := by
  have formed := parse_wellFormed parsed
  have compiled := generate_compiled formed analyzed generated
  have unitTyped := compiled.typed formed analyzed
  refine ⟨compiled.stmts_stand s inside, ?_⟩
  intro σ host first h₀ h n q pos stack mem here node guards started run code
  obtain rfl := Except.ok.inj (compiled.start.symm.trans started)
  obtain ⟨types, conforms⟩ := (compiled.start_conforms unitTyped).after unitTyped run
  have same : q.unit = u := conforms.unit
  constructor
  · rintro rfl
    rw [Analysis.lowerStmt] at code ⊢
    obtain ⟨stop, stands, aborts⟩ := Analysis.lowerChoice_stands _ guards pos code
    refine ⟨?_, alternative_startsWith parsed inside, lineOperand_toInt _, fun console => rfl⟩
    apply stands.tried unitTyped same _ conforms (Spot.at_machine ..)
    intro c types conforms at_
    exact Spot.fails aborts at_ (conforms.unit.trans same.symm)
  · rintro rfl
    rw [Analysis.lowerStmt] at code ⊢
    have stands := Analysis.lowerLoop_stands pos guards 0 code
    exact stands.tried unitTyped same (fun c types conforms at_ => at_) conforms
      (Spot.at_machine ..)

/-- A choice on the second line whose second guard has a method and a loop in its body. -/
def branching : String :=
  "program p\nif 1 < 0 :: print 1 " ++
  "true :: \x7b fun f() : int \x7b return 2 \x7d do f() < 2 :: print f() od \x7d fi"

/-- The guards of a choice. -/
def choice? : Stmt → Option (Node × List Guard)
  | .alternative node guards => some (node, guards)
  | _ => none

theorem choice?_eq_some {s : Stmt} {node : Node} {guards : List Guard}
    (h : choice? s = some (node, guards)) : s = .alternative node guards := by
  unfold choice? at h
  split at h
  · simp only [Option.some.injEq, Prod.mk.injEq] at h
    obtain ⟨rfl, rfl⟩ := h
    rfl
  · cases h

theorem guards_in_order_branching : ∃ p a u places node guards,
    parse branching = .ok p ∧ p.analyze = .ok a ∧ a.generate "demo" p = .ok (u, places) ∧
    .alternative node guards ∈ p.stmts ∧ guards.length = 2 ∧ node.span.line = 2 ∧
    node.StartsWith branching .if ∧ Machine.start u = .ok (u.spot.machine 0 [] u.memory) ∧
    Guard.Tried Console.answer u.spot a none
      (0 + Op.sizeAll (a.lowerStmt none (.alternative node guards)))
      (Machine.FailsAt Console.answer 2) guards 0 (u.spot.machine 0 [] u.memory, ⟨[], ""⟩) := by
  have passes : (do
      let p ← parse branching
      let a ← p.analyze
      let _ ← a.generate "demo" p
      let s ← (p.body.head?.elim (.error .stackOverflow) .ok : Except Error Stmt)
      let parts ← ((choice? s).elim (.error .stackOverflow) .ok : Except Error _)
      if parts.2.length = 2 ∧ parts.1.span.line = 2 then .ok ()
      else .error .stackOverflow : Except Error Unit).isOk = true := by
    decide +kernel
  obtain ⟨⟨⟩, run⟩ := except_of_isOk passes
  obtain ⟨p, parsed, run⟩ := except_bind_ok.mp run
  obtain ⟨a, analyzed, run⟩ := except_bind_ok.mp run
  obtain ⟨⟨u, places⟩, generated, run⟩ := except_bind_ok.mp run
  obtain ⟨s, head, run⟩ := except_bind_ok.mp run
  obtain ⟨⟨node, guards⟩, parts, run⟩ := except_bind_ok.mp run
  split at run
  case isFalse => cases run
  case isTrue holds =>
    obtain ⟨two, line⟩ := holds
    obtain rfl := choice?_eq_some (except_of_elim parts)
    obtain ⟨rest, body⟩ := List.head?_eq_some_iff.mp (except_of_elim head)
    have compiled := generate_compiled (parse_wellFormed parsed) analyzed generated
    have code := (Op.codeAt_append.mp compiled.code).1
    rw [body, Analysis.lowerStmts, Op.codeAt_append] at code
    have inside : .alternative node guards ∈ p.stmts := by
      rw [Program.stmts, body]
      exact List.mem_cons_self
    have tried := ((guards_in_order parsed analyzed generated inside).2 Console.answer _ ⟨[], ""⟩ _
      0 u.spot 0 [] u.memory none node guards compiled.start rfl code.1).1 rfl
    rw [line] at tried
    exact ⟨p, a, u, places, node, guards, parsed, analyzed, generated, inside, two, line,
      tried.2.1, compiled.start, tried.1⟩

end Program

end Guarded
