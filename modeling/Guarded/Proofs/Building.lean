import Guarded.Proofs.ObjectFiles
import Guarded.Proofs.Frames

/-!
Building a program and running the object file comes to the same as running the source. The package of
a unit only says where its file is kept: code does the same in every package.
-/

namespace Guarded

/-- The unit in another package. -/
def ObjectUnit.moved (u : ObjectUnit) (package : String) : ObjectUnit :=
  { u with package }

/-- The machine of the unit in another package. -/
def Machine.moved (m : Machine) (package : String) : Machine :=
  { m with unit := m.unit.moved package }

namespace Machine
variable (m : Machine) (package : String)

@[simp]
theorem moved_frames : (m.moved package).frames = m.frames := rfl

@[simp]
theorem moved_stack : (m.moved package).stack = m.stack := rfl

@[simp]
theorem moved_globals : (m.moved package).globals = m.globals := rfl

@[simp]
theorem moved_routines : (m.moved package).unit.routines = m.unit.routines := rfl

end Machine

theorem Analysis.generate_moved {a : Analysis} {p : Program} {package : String} {u : ObjectUnit}
    {places : Std.TreeMap SymbolId Place} (h : a.generate package p = .ok (u, places))
    (package' : String) : a.generate package' p = .ok (u.moved package', places) := by
  obtain ⟨⟨_, s⟩, assembled, h⟩ := except_bind_ok.mp h
  obtain ⟨entry, finished, h⟩ := except_bind_ok.mp h
  cases h
  exact except_bind_ok.mpr ⟨_, assembled, except_bind_ok.mpr ⟨_, finished, rfl⟩⟩

theorem Analysis.generate_name {a : Analysis} {p : Program} {package : String} {u : ObjectUnit}
    {places : Std.TreeMap SymbolId Place} (h : a.generate package p = .ok (u, places)) :
    u.name = p.name.name := by
  obtain ⟨⟨_, s⟩, -, h⟩ := except_bind_ok.mp h
  obtain ⟨entry, -, h⟩ := except_bind_ok.mp h
  cases h
  rfl

/-- A source is compiled in one package as it is in another. -/
theorem compile_moved {package source : String} {u : ObjectUnit}
    (h : compile package source = .ok u) (package' : String) :
    compile package' source = .ok (u.moved package') := by
  obtain ⟨p, a, places, parsed, analyzed, generated⟩ := Program.generate_of_compile h
  have again := a.generate_moved generated package'
  exact except_bind_ok.mpr ⟨p, parsed, except_bind_ok.mpr ⟨a, analyzed,
    except_bind_ok.mpr ⟨_, again, rfl⟩⟩⟩

namespace Exec
variable {α β : Type} {package : String} {x : Exec α} {f : α → Exec β}

/-- The outcome in another package. -/
def moved (package : String) (r : Except Error (α × Machine)) : Except Error (α × Machine) :=
  r.map fun (a, m) => (a, m.moved package)

/-- This does the same in another package. -/
def Moves (package : String) (x : Exec α) : Prop :=
  ∀ m, x (m.moved package) = moved package (x m)

namespace Moves

theorem pure (a : α) : Moves package (Pure.pure a) :=
  fun _ => rfl

theorem throw (e : Error) : Moves package (MonadExcept.throw e : Exec α) :=
  fun _ => rfl

theorem bind (first : Moves package x) (second : ∀ a, Moves package (f a)) :
    Moves package (x >>= f) := by
  intro m
  show (x (m.moved package)).bind _ = moved package ((x m).bind _)
  rw [first m]
  cases x m with
  | error e => rfl
  | ok r => exact second r.1 r.2

theorem lift (y : Except Error α) : Moves package (liftM y) := by
  intro m
  cases y <;> rfl

/-- How to go on is decided by what is found. -/
theorem inspect {g : Machine → Exec α}
    (h : ∀ m, g (m.moved package) (m.moved package) = moved package (g m m)) :
    Moves package (get >>= g) :=
  h

theorem update {g : Machine → Machine} (h : ∀ m, g (m.moved package) = (g m).moved package) :
    Moves package (modify g) := by
  intro m
  exact congrArg (fun m => Except.ok ((), m)) (h m)

theorem ite {p : Prop} [Decidable p] {y z : Exec α} (hy : Moves package y) (hz : Moves package z) :
    Moves package (if p then y else z) := by
  split
  · exact hy
  · exact hz

end Moves

theorem ite_moved {p : Prop} [Decidable p] {m : Machine} {y z y' z' : Exec α}
    (hy : y' (m.moved package) = moved package (y m))
    (hz : z' (m.moved package) = moved package (z m)) :
    (if p then y' else z') (m.moved package) = moved package ((if p then y else z) m) := by
  split
  · exact hy
  · exact hz

theorem push_moves (v : Value) : Moves package (push v) :=
  .update fun _ => rfl

theorem pop_moves : Moves package pop := by
  refine .inspect fun m => ?_
  rw [m.moved_stack]
  cases m.stack <;> rfl

theorem popInt_moves : Moves package popInt :=
  pop_moves.bind fun _ => .lift _

theorem popFloat_moves : Moves package popFloat :=
  pop_moves.bind fun _ => .lift _

theorem frame_moves : Moves package frame := by
  refine .inspect fun m => ?_
  rw [m.moved_frames]
  cases m.frames <;> rfl

theorem loadLocal_moves (slot : Nat) : Moves package (loadLocal slot) := by
  refine frame_moves.bind fun f => ?_
  split
  · exact push_moves _
  · exact .throw _

theorem storeLocal_moves (slot : Nat) (v : Value) : Moves package (storeLocal slot v) := by
  refine .inspect fun m => ?_
  rw [m.moved_frames]
  cases m.frames with
  | nil => rfl
  | cons f frames => exact ite_moved rfl rfl

theorem loadGlobal_moves (field : String) : Moves package (loadGlobal field) := by
  refine .inspect fun m => ?_
  rw [m.moved_globals]
  cases m.globals[field]? <;> rfl

theorem storeGlobal_moves (field : String) (v : Value) : Moves package (storeGlobal field v) := by
  refine .inspect fun m => ?_
  exact ite_moved rfl rfl

theorem intOp_moves (op : Int32 → Int32 → Int32) : Moves package (intOp op) :=
  popInt_moves.bind fun _ => popInt_moves.bind fun _ => push_moves _

theorem floatOp_moves (op : Float32 → Float32 → Float32) : Moves package (floatOp op) :=
  popFloat_moves.bind fun _ => popFloat_moves.bind fun _ => push_moves _

theorem divide_moves (op : Int32 → Int32 → Int32) : Moves package (divide op) :=
  popInt_moves.bind fun _ => popInt_moves.bind fun _ => .ite (.throw _) (push_moves _)

theorem compareFloats_moves (unordered : Int32) : Moves package (compareFloats unordered) :=
  popFloat_moves.bind fun _ => popFloat_moves.bind fun _ => push_moves _

theorem newArray_moves (elem : Elem) : Moves package (newArray elem) :=
  popInt_moves.bind fun _ => .ite (.throw _) (.inspect fun _ => rfl)

theorem element_moves : Moves package element := by
  refine popInt_moves.bind fun index => pop_moves.bind fun v => (Moves.lift _).bind fun handle => ?_
  exact .inspect fun m => Moves.ite (.pure _) (.throw _) m

theorem loadElement_moves : Moves package loadElement :=
  element_moves.bind fun _ => .inspect fun m => push_moves _ m

theorem storeElement_moves : Moves package storeElement :=
  pop_moves.bind fun _ => element_moves.bind fun _ => .update fun _ => rfl

theorem jump_moves (target : Nat) : Moves package (jump target) := by
  refine .update fun m => ?_
  rw [m.moved_frames]
  cases m.frames <;> rfl

theorem leave_moves : Moves package leave :=
  .update fun _ => rfl

theorem enter_moves (r : Routine) : Moves package (enter r) := by
  refine .inspect fun m => ?_
  exact ite_moved rfl (ite_moved rfl (ite_moved rfl rfl))

theorem invoke_moves (name : String) : Moves package (invoke name) := by
  refine .inspect fun m => ?_
  rw [m.moved_routines]
  cases m.unit.routines.findRev? fun r => r.name == name with
  | none => rfl
  | some r => exact enter_moves r m

theorem request_moves (s : Service) : Moves package (request s) := by
  cases s with
  | printInt | printBoolean | abortNoAlternative | abortNoFunctionReturn =>
    exact popInt_moves.bind fun _ => .pure _
  | printFloat => exact popFloat_moves.bind fun _ => .pure _
  | inputInt | inputFloat | inputBoolean =>
    exact pop_moves.bind fun _ => (Moves.lift _).bind fun _ => .pure _

theorem instr_moves (i : Instr) : Moves package (instr i) := by
  cases i with
  | iconst | fconst | sconst => exact push_moves _
  | iload | fload | aload => exact loadLocal_moves _
  | istore | fstore | astore => exact pop_moves.bind fun _ => storeLocal_moves _ _
  | getstatic => exact loadGlobal_moves _
  | putstatic => exact pop_moves.bind fun _ => storeGlobal_moves _ _
  | newarray => exact newArray_moves _
  | iaload | faload => exact loadElement_moves
  | iastore | fastore => exact storeElement_moves
  | iadd | isub | imul | iand | ior => exact intOp_moves _
  | idiv | irem => exact divide_moves _
  | fadd | fsub | fmul | fdiv => exact floatOp_moves _
  | ineg | i2f => exact popInt_moves.bind fun _ => push_moves _
  | fneg | f2i => exact popFloat_moves.bind fun _ => push_moves _
  | fcmpl | fcmpg => exact compareFloats_moves _
  | branch => exact popInt_moves.bind fun _ => .ite (jump_moves _) (.pure _)
  | branchCompare =>
    exact popInt_moves.bind fun _ => popInt_moves.bind fun _ => .ite (jump_moves _) (.pure _)
  | goto => exact jump_moves _
  | invoke => exact invoke_moves _
  | service => exact .pure _
  | ireturn | freturn => exact pop_moves.bind fun _ => leave_moves.bind fun _ => push_moves _
  | ret => exact leave_moves

end Exec

namespace Machine
variable {package : String}

/-- What comes of a step in another package. -/
def Step.moved (package : String) : Step → Step
  | .done m => .done (m.moved package)
  | .next m => .next (m.moved package)
  | .ask r m => .ask r (m.moved package)
  | .fail e => .fail e

theorem step_moved (m : Machine) : (m.moved package).step = m.step.moved package := by
  rw [step, step, m.moved_frames]
  cases m.frames with
  | nil => rfl
  | cons f below =>
    obtain ⟨t, ht⟩ : ∃ t : Machine, t = { m with frames := { f with pc := f.pc + 1 } :: below } :=
      ⟨_, rfl⟩
    have next : { m.moved package with frames := { f with pc := f.pc + 1 } :: below } =
      t.moved package := by rw [ht]; rfl
    have asked (s : Service) : Exec.request s (t.moved package) = _ := Exec.request_moves s t
    have done (i : Instr) : Exec.instr i (t.moved package) = _ := Exec.instr_moves i t
    dsimp only
    split
    · rfl
    · rw [next, asked, ← ht]
      cases Exec.request _ t <;> rfl
    · rw [next, done, ← ht]
      cases Exec.instr _ t <;> rfl

theorem resume_moved (m : Machine) (r : Request) (reply : r.Reply) :
    (m.moved package).resume r reply = (m.resume r reply).moved package := by
  cases r <;> first | rfl | cases reply

/-- The end of a run in another package. -/
def endMoved {σ : Type} (package : String) :
    EStateM.Result Error σ Machine → EStateM.Result Error σ Machine
  | .ok m s => .ok (m.moved package) s
  | .error e s => .error e s

theorem advance_moved {σ : Type} (host : Host σ) (m : Machine) (s : σ) :
    advance host (m.moved package, s) =
      (advance host (m, s)).map (fun c => (c.1.moved package, c.2)) (endMoved package) := by
  rw [advance, advance, step_moved]
  cases m.step with
  | done | next | fail => rfl
  | ask r m =>
    dsimp only [Step.moved]
    cases host r s with
    | error e s => rfl
    | ok reply s =>
      dsimp only
      rw [resume_moved]
      rfl

/-- A run goes the same way in another package. -/
theorem run_moved {σ : Type} (host : Host σ) (fuel : Nat) (m : Machine) (s : σ) :
    run host fuel (m.moved package) s = (run host fuel m s).map (endMoved package) := by
  induction fuel generalizing m s with
  | zero => rfl
  | succ fuel ih =>
    rw [run, run, advance_moved]
    cases advance host (m, s) with
    | inl c => exact ih c.1 c.2
    | inr r => rfl

theorem after_moved {σ : Type} (host : Host σ) (n : Nat) (m : Machine) (s : σ) :
    after host n (m.moved package, s) =
      (after host n (m, s)).map fun c => (c.1.moved package, c.2) := by
  induction n generalizing m s with
  | zero => rfl
  | succ n ih =>
    rw [after, after, advance_moved]
    cases advance host (m, s) with
    | inl c => exact ih c.1 c.2
    | inr r => rfl

theorem start_moved (u : ObjectUnit) :
    start (u.moved package) = (start u).map fun m => m.moved package := by
  have entered : Exec.enter u.entry ((idle u).moved package) = _ := Exec.enter_moves u.entry (idle u)
  show (Exec.enter u.entry ((idle u).moved package)).bind _ =
    ((Exec.enter u.entry (idle u)).bind _).map _
  rw [entered]
  cases Exec.enter u.entry (idle u) <;> rfl

end Machine

theorem ObjectUnit.execute_moved {σ : Type} (u : ObjectUnit) (package : String)
    (host : Machine.Host σ) (fuel : Nat) (s : σ) :
    (u.moved package).execute host fuel s =
      (u.execute host fuel s).map (Machine.endMoved package) := by
  rw [execute, execute, Machine.start_moved]
  cases Machine.start u with
  | error e => rfl
  | ok m => exact Machine.run_moved host fuel m s

theorem ObjectUnit.stopped_moved {σ : Type} (u : ObjectUnit) (package : String)
    (host : Machine.Host σ) (fuel : Nat) (s : σ) :
    (u.moved package).stopped host fuel s = u.stopped host fuel s := by
  rw [stopped, stopped, Machine.start_moved]
  cases Machine.start u with
  | error e => rfl
  | ok m =>
    show ((Machine.after host fuel (m.moved package, s)).map Prod.snd).getD s = _
    rw [Machine.after_moved, Option.map_map]
    rfl

namespace Session
variable {fuel : Nat} {s : Session} {u : ObjectUnit}

/-- The package of a unit does not show when it is run. -/
theorem execute_moved (fuel : Nat) (u : ObjectUnit) (package : String) :
    execute fuel (u.moved package) = execute fuel u := by
  rw [execute, execute]
  congr 1
  funext s
  rw [u.execute_moved, u.stopped_moved]
  cases u.execute Console.answer fuel ⟨s.input, s.output⟩ with
  | none => rfl
  | some r => cases r <;> rfl

/-- Work that goes on after a step. -/
theorem attempt_eq {α β : Type} {x : ExceptT Failure (StateM Session) α}
    {f : α → ExceptT Failure (StateM Session) β} {a : α} {t : Session}
    (h : x.run.run s = (.ok a, t)) : (x >>= f).run.run s = (f a).run.run t := by
  rw [ExceptT.run_bind, StateT.run_bind, h]
  rfl

theorem lift_eq {α : Type} {x : StateM Session α} {a : α} {t : Session} (h : x.run s = (a, t)) :
    (liftM x : ExceptT Failure (StateM Session) α).run.run s = (.ok a, t) := by
  show (Except.ok <$> x).run s = _
  rw [StateT.run_map, h]
  rfl

/-- Runs a unit and gives the exit status. -/
def launch (fuel : Nat) (u : ObjectUnit) : StateM Session UInt32 :=
  Terminal.perform.finish (terminal fuel) do Terminal.require (← (terminal fuel).execute u)

theorem launch_moved (fuel : Nat) (u : ObjectUnit) (package : String) :
    launch fuel (u.moved package) = launch fuel u := by
  have same : (terminal fuel).execute (u.moved package) = (terminal fuel).execute u :=
    execute_moved fuel u package
  rw [launch, launch, same]

theorem finish_congr {x y : ExceptT Failure (StateM Session) Unit} (h : x.run.run s = y.run.run s) :
    (Terminal.perform.finish (terminal fuel) x).run s =
      (Terminal.perform.finish (terminal fuel) y).run s := by
  simp only [Terminal.perform.finish, StateT.run_bind, h]

theorem readSource_eq {path source : String} (readable : s.files.read path = .ok source) :
    ((terminal fuel).readSource path).run.run s = (.ok source, s) := by
  have read := readText_eq fuel s path
  rw [readable] at read
  rw [Terminal.readSource, attempt_eq (lift_eq read)]
  rfl

theorem require_eq {α : Type} (a : α) :
    (Terminal.require (.ok a) : ExceptT Failure (StateM Session) α).run.run s = (.ok a, s) :=
  rfl

theorem perform_source {path package source : String}
    (plain : Path.extension? path ≠ some ObjectUnit.extension)
    (readable : s.files.read path = .ok source) (compiled : compile package source = .ok u) :
    ((terminal fuel).perform (.run path package)).run s = (launch fuel u).run s := by
  refine finish_congr ?_
  rw [Terminal.run, if_neg plain]
  rw [attempt_eq (readSource_eq readable), compiled, attempt_eq (require_eq u)]

theorem perform_object {path package text : String}
    (object : Path.extension? path = some ObjectUnit.extension)
    (readable : s.files.read path = .ok text) (loaded : ObjectUnit.load text = .ok u) :
    ((terminal fuel).perform (.run path package)).run s = (launch fuel u).run s := by
  refine finish_congr ?_
  rw [Terminal.run, if_pos object]
  have read : ((terminal fuel).readUnit path).run s = (.ok u, s) := by
    rw [readUnit_eq readable, loaded]
  rw [attempt_eq (lift_eq read), attempt_eq (require_eq u)]

theorem launch_eq {result : Except Error Unit} {t : Session}
    (h : (execute fuel u).run s = (result, t)) : (launch fuel u).run s = match result with
      | .ok () => (0, t)
      | .error e => (1, { t with errors := t.errors ++ (Failure.error e).report }) := by
  have required : (do Terminal.require (← (terminal fuel).execute u) :
      ExceptT Failure (StateM Session) Unit).run.run s = _ := attempt_eq (lift_eq h)
  rw [launch, Terminal.perform.finish, StateT.run_bind, required]
  cases result <;> rfl

/-- A run has nothing to do with the files. -/
theorem launch_files (fuel : Nat) (u : ObjectUnit) (s : Session) (files : FileTree) :
    ∃ status input output errors,
      (launch fuel u).run s = (status, ⟨s.files, input, output, errors⟩) ∧
      (launch fuel u).run { s with files } = (status, ⟨files, input, output, errors⟩) := by
  obtain ⟨result, input, output, executed⟩ : ∃ result input output, ∀ files,
      (execute fuel u).run { s with files } = (result, ⟨files, input, output, s.errors⟩) := by
    simp only [execute, StateT.run_modifyGet]
    rcases u.execute Console.answer fuel ⟨s.input, s.output⟩ with _ | _ | _
    · exact ⟨_, _, _, fun _ => rfl⟩
    · exact ⟨_, _, _, fun _ => rfl⟩
    · exact ⟨_, _, _, fun _ => rfl⟩
  have here := launch_eq (executed s.files)
  have there := launch_eq (executed files)
  cases result <;> exact ⟨_, _, _, _, here, there⟩

/-- Building a program and running the object file comes to the same as running the source. Where the
unit of a source is written, the last component of the path is the name of the program with the
extension of object files, the unit is read back from there as it was, and to run the file or the
source, each in any package, gives the same exit status, output and error text and leaves the same
input; of a program that is still running at the limit, the output is what it has printed by then.
Routines are assumed to be short enough for a branch target of 64 bits, and the digits that are
written for the constants to read back. -/
theorem run_built {package source output path : String} {s' : Session}
    (compiled : compile package source = .ok u)
    (short : ∀ r ∈ u.entry :: u.routines.toList, r.code.size ≤ 2 ^ 64)
    (digits : ∀ r ∈ u.entry :: u.routines.toList, ∀ v, Instr.fconst v ∈ r.code.toList →
      Json.ReadsBack v)
    (written : ((terminal fuel).writeUnit u output package).run s = (.ok path, s')) :
    (∃ p, parse source = .ok p ∧
      (Path.split path).2 = some (p.name.name ++ "." ++ ObjectUnit.extension).toList) ∧
    Path.extension? path = some ObjectUnit.extension ∧
    ((terminal fuel).readUnit path).run s' = (.ok u, s') ∧
    ∀ (limit : Nat) (t : Session) (files : FileTree) (input pkg pkg' : String),
      t.files = s'.files → files.read input = .ok source →
      Path.extension? input ≠ some ObjectUnit.extension →
      ∃ status rest out err,
        ((terminal limit).perform (.run path pkg)).run t = (status, ⟨t.files, rest, out, err⟩) ∧
        ((terminal limit).perform (.run input pkg')).run { t with files } =
          (status, ⟨files, rest, out, err⟩) := by
  obtain ⟨p, a, places, parsed, -, generated⟩ := Program.generate_of_compile compiled
  obtain ⟨rfl, stored⟩ := writeUnit_ok written
  have stem : Path.Stem p.name.name.toList := Path.stem_of_parse parsed
  rw [← Analysis.generate_name generated] at stem
  obtain ⟨component, object⟩ := Path.ofUnit_split output package stem
  have loaded := ObjectUnit.load_save (compile_savable compiled short digits)
  refine ⟨⟨p, parsed, ?_⟩, object, ?_, ?_⟩
  · rw [component, Analysis.generate_name generated]
  · rw [readUnit_eq stored, loaded]
  · intro limit t files input pkg pkg' same readable plain
    obtain ⟨status, rest, out, err, here, there⟩ := launch_files limit u t files
    refine ⟨status, rest, out, err, ?_, ?_⟩
    · rw [perform_object object (same ▸ stored) loaded, here]
    · rw [perform_source plain readable (compile_moved compiled pkg'), launch_moved, there]

/-- A program with constants that no binary fraction equals, in its body and in a method. -/
def tenths : String :=
  "program tenths float x; fun scale(float y) : float \x7b return y * 0.1 \x7d " ++
  "x <- scale(3.7); print x"

/-- What is asked of the unit of the program and of writing it. -/
def tenthsFit (u : ObjectUnit) : Bool :=
  ((u.entry :: u.routines.toList).all fun r => r.code.size ≤ 2 ^ 64 && r.code.toList.all fun
    | .fconst v => Json.ReadsBack v
    | _ => true) &&
  (((terminal 0).writeUnit u "out" "demo").run (ofFiles .empty [])).1.isOk

theorem tenths_fits : ∃ u, compile "demo" tenths = .ok u ∧ tenthsFit u = true := by
  have checked : (do return tenthsFit (← compile "demo" tenths) : Except Error _) = .ok true :=
    except_of_toOption (by decide +kernel)
  obtain ⟨u, compiled, fits⟩ := except_bind_ok.mp checked
  exact ⟨u, compiled, Except.ok.inj fits⟩

theorem run_built_tenths : ∃ u path s',
    compile "demo" tenths = .ok u ∧
    ((terminal 0).writeUnit u "out" "demo").run (ofFiles .empty []) = (.ok path, s') ∧
    (∃ p, parse tenths = .ok p ∧
      (Path.split path).2 = some (p.name.name ++ "." ++ ObjectUnit.extension).toList) ∧
    Path.extension? path = some ObjectUnit.extension ∧
    ((terminal 0).readUnit path).run s' = (.ok u, s') ∧
    ∀ (limit : Nat) (t : Session) (files : FileTree) (input pkg pkg' : String),
      t.files = s'.files → files.read input = .ok tenths →
      Path.extension? input ≠ some ObjectUnit.extension →
      ∃ status rest out err,
        ((terminal limit).perform (.run path pkg)).run t = (status, ⟨t.files, rest, out, err⟩) ∧
        ((terminal limit).perform (.run input pkg')).run { t with files } =
          (status, ⟨files, rest, out, err⟩) := by
  obtain ⟨u, compiled, fits⟩ := tenths_fits
  simp only [tenthsFit, Bool.and_eq_true, List.all_eq_true, decide_eq_true_eq] at fits
  obtain ⟨code, writes⟩ := fits
  cases written : ((terminal 0).writeUnit u "out" "demo").run (ofFiles .empty []) with
  | mk result s' =>
    rw [written] at writes
    cases result with
    | error e => cases writes
    | ok path =>
      exact ⟨u, path, s', compiled, written, run_built compiled (fun r mem => (code r mem).1)
        (fun r mem v const => of_decide_eq_true ((code r mem).2 _ const)) written⟩

end Session

end Guarded
