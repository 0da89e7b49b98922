import Guarded.Proofs.Calls

/-!
Compiled programs do what they mean. A unit that is run and the program it was made from give the
same output and end in the same way, or neither of them ends; and no run goes wrong in a way that
only broken code can.
-/

namespace Guarded

namespace Machine

/-- How a run ended, without the machine it ended with. -/
def outcome {σ α : Type} : EStateM.Result Error σ α → EStateM.Result Error σ Unit
  | .ok _ s => .ok () s
  | .error e s => .error e s

/-- A run left nothing on the stack, or it failed by a fault of the program or its surroundings. -/
def ProperEnd {σ : Type} (host : Host σ) : EStateM.Result Error σ Machine → Prop
  | .ok m _ => m.stack = []
  | .error e _ => (∃ t : Trap, e = t.error) ∨ host.Refuses e

/-- The fields of a machine before it runs, from a list of them. -/
def zeroFields (fields : List Field) (start : Std.TreeMap String Value) :
    Std.TreeMap String Value :=
  fields.foldl (fun g f => g.insert f.name (Value.zero f.slot)) start

theorem zeroFields_other {fields : List Field} {start : Std.TreeMap String Value} {name : String}
    (other : name ∉ fields.map Field.name) : (zeroFields fields start)[name]? = start[name]? := by
  induction fields generalizing start with
  | nil => rfl
  | cons f fields ih =>
    obtain ⟨different, other⟩ := List.ne_and_not_mem_of_not_mem_cons other
    show (zeroFields fields (start.insert f.name _))[name]? = _
    rw [ih other, Std.TreeMap.getElem?_insert]
    simp [different.symm]

/-- Every field is zero at first. -/
theorem zeroFields_get {fields : List Field} (distinct : (fields.map Field.name).Nodup)
    {start : Std.TreeMap String Value} {f : Field} (mem : f ∈ fields) :
    (zeroFields fields start)[f.name]? = some (Value.zero f.slot) := by
  induction fields generalizing start with
  | nil => cases mem
  | cons g fields ih =>
    obtain ⟨new, distinct⟩ := List.nodup_cons.mp distinct
    rcases List.mem_cons.mp mem with rfl | mem
    · show (zeroFields fields (start.insert f.name _))[f.name]? = _
      rw [zeroFields_other new]
      simp
    · exact ih distinct mem

theorem idle_globals (u : ObjectUnit) : (idle u).globals = zeroFields u.globals.toList ∅ := by
  simp [idle, zeroFields]

end Machine

namespace ObjectUnit

/-- Where the program itself runs. -/
def spot (u : ObjectUnit) : Spot :=
  ⟨u, u.entry, []⟩

/-- What a machine keeps before it runs. -/
def memory (u : ObjectUnit) : Memory :=
  ⟨u.entry.entryLocals [], (Machine.idle u).globals, #[]⟩

end ObjectUnit

/-- The program itself does not return. -/
theorem Flows.not_returned {a : Analysis} {σ : Type} {places : Places} {q : Spot}
    {s s' : State a σ} {pos : Nat} {stack : List Value} {t : Ty} {v : Option t.Den} {m : Machine} :
    ¬ Flows places none q s pos stack (.returned v) s' m := by
  intro flows
  cases v with
  | none =>
    obtain ⟨_, _, inside, -⟩ := flows
    cases inside
  | some v =>
    obtain ⟨_, _, _, inside, -⟩ := flows
    cases inside

namespace Program.Compiled
variable {σ : Type} {p : Program} {a : Analysis} {places : Places} {u : ObjectUnit}

theorem start (compiled : p.Compiled a places u) :
    Machine.start u = .ok (u.spot.machine 0 [] u.memory) := by
  obtain ⟨params, -, locals⟩ := compiled.heading
  have room : (Machine.idle u).frames.length < Exec.maxDepth := Nat.zero_lt_succ _
  have noArgs : (Machine.idle u).stack = ([] : List Value).reverse ++ [] := rfl
  have entered := Exec.enter_ok (r := u.entry) room (by simp [params, locals]) (by simp [params])
    noArgs
  show (Exec.enter u.entry (Machine.idle u)).bind _ = _
  rw [entered]
  rfl

/-- At first every variable is zero. -/
theorem shows (compiled : p.Compiled a places u) (s : σ) :
    Shows a places none ⟨.zero, .zero, #[], s⟩ u.memory := by
  refine ⟨?_, by nofun, by simp [ObjectUnit.memory], by nofun, by nofun⟩
  intro x f known
  obtain ⟨-, ⟨slot, ok, mem⟩, -⟩ := compiled.fields x f known
  show (Machine.idle u).globals[f]? = _
  rw [Machine.idle_globals, ← Store.zero_eq_datum ok rfl rfl]
  exact Machine.zeroFields_get compiled.distinct mem

/-- The machine follows the program itself. -/
theorem follows (compiled : p.Compiled a places u) (formed : p.WellFormed)
    (analyzed : p.analyze = .ok a) (host : Machine.Host σ) (n : Nat) (s : σ) :
    Follows host n (u.spot.machine 0 [] u.memory) ⟨.zero, .zero, #[], s⟩
      (Stmt.execAll (t := .undefined) host n (p.invoke a host n (Exec.maxDepth - 1)) p.body)
      (Flows places none u.spot ⟨.zero, .zero, #[], s⟩
        (Op.sizeAll (a.lowerStmts none p.body)) []) := by
  have linked := analyze_linked formed analyzed
  have setting : Setting p a places u none u.spot (Exec.maxDepth - 1) :=
    { compiled, ready := analyze_ready formed analyzed, linked
      slots := ⟨[], by simp [Places.Slots]⟩, unit := rfl, depth := rfl }
  have carries : Carries host n places none u.spot .undefined (a.lowerStmts none p.body)
      (Stmt.execAll host n (p.invoke a host n (Exec.maxDepth - 1)) p.body) :=
    Stmt.carriesAll setting (callsFollow formed analyzed compiled _) (fun _ same => by cases same)
      p.body linked.bound (analyze_body_typed formed analyzed)
  have body := carries 0 _ _ [] (Op.codeAt_append.mp compiled.code).1 (compiled.shows s)
  rwa [Nat.zero_add] at body

/-- A run ends as the evaluation does, or lasts as long as the evaluation has fuel. -/
theorem evaluates (compiled : p.Compiled a places u) (formed : p.WellFormed)
    (analyzed : p.analyze = .ok a) (host : Machine.Host σ) (n : Nat) (s : σ) :
    match p.evaluate a host n s with
    | some (.ok _ s') => ∃ m, m.stack = [] ∧
        Machine.Finishes host (u.spot.machine 0 [] u.memory, s) (.ok m s')
    | some (.error e s') =>
        Machine.Finishes host (u.spot.machine 0 [] u.memory, s) (.error e s') ∧
          ((∃ t : Trap, e = t.error) ∨ host.Refuses e)
    | none => Machine.Lasts host n (u.spot.machine 0 [] u.memory, s) := by
  have follows := compiled.follows formed analyzed host n s
  unfold Follows at follows
  unfold evaluate
  dsimp only at follows ⊢
  cases done : Stmt.execAll (t := .undefined) host n (p.invoke a host n (Exec.maxDepth - 1)) p.body
    ⟨.zero, .zero, #[], s⟩ with
  | ok flow s' =>
    rw [done] at follows
    obtain ⟨m, reaches, flows⟩ := follows
    cases flow with
    | normal =>
      obtain ⟨mem, rfl, -⟩ := flows
      have last := (Op.codeAt_append.mp compiled.code).2
      rw [Nat.zero_add] at last
      obtain ⟨i, found, rfl⟩ := last.1 rfl
      exact ⟨_, rfl, reaches.finishes (fun _ => Spot.not_calls found (by nofun))
        (Spot.advance_instr found (by nofun) rfl) rfl⟩
    | returned v => exact absurd flows Flows.not_returned
  | error e s' =>
    rw [done] at follows
    cases e with
    | outOfFuel => exact follows
    | trap t => exact ⟨follows.finishes, Or.inl ⟨t, rfl⟩⟩
    | refused e => exact ⟨follows.1.finishes, Or.inr follows.2⟩

end Program.Compiled

namespace Program.Compiled
variable {σ : Type} {host : Machine.Host σ} {p : Program} {a : Analysis} {places : Places}
variable {u : ObjectUnit} {s : σ}

theorem execute (compiled : p.Compiled a places u) (fuel : Nat) :
    u.execute host fuel s = Machine.run host fuel (u.spot.machine 0 [] u.memory) s := by
  simp [ObjectUnit.execute, compiled.start]

/-- A run that is over has the outcome of the program, and it did not fail as broken code does. -/
theorem of_execute (compiled : p.Compiled a places u) (formed : p.WellFormed)
    (analyzed : p.analyze = .ok a) {fuel : Nat} {r : EStateM.Result Error σ Machine}
    (ran : u.execute host fuel s = some r) :
    p.evaluate a host fuel s = some (Machine.outcome r) ∧ Machine.ProperEnd host r := by
  rw [compiled.execute] at ran
  have evaluated := compiled.evaluates formed analyzed host fuel s
  cases known : p.evaluate a host fuel s with
  | none =>
    rw [known] at evaluated
    cases evaluated.run.symm.trans ran
  | some r' =>
    rw [known] at evaluated
    cases r' with
    | ok _ s' =>
      obtain ⟨m, empty, finishes⟩ := evaluated
      rw [finishes.unique ran]
      exact ⟨rfl, empty⟩
    | error e s' =>
      rw [evaluated.1.unique ran]
      exact ⟨rfl, evaluated.2⟩

/-- If the program ends, so does its run. -/
theorem execute_of_evaluate (compiled : p.Compiled a places u) (formed : p.WellFormed)
    (analyzed : p.analyze = .ok a) {fuel : Nat} {r : EStateM.Result Error σ Unit}
    (known : p.evaluate a host fuel s = some r) :
    ∃ fuel, (u.execute host fuel s).map Machine.outcome = some r := by
  have evaluated := compiled.evaluates formed analyzed host fuel s
  rw [known] at evaluated
  cases r with
  | ok _ s' =>
    obtain ⟨m, -, finishes⟩ := evaluated
    obtain ⟨fuel, ran⟩ := finishes.run
    exact ⟨fuel, by rw [compiled.execute, ran]; rfl⟩
  | error e s' =>
    obtain ⟨fuel, ran⟩ := evaluated.1.run
    exact ⟨fuel, by rw [compiled.execute, ran]; rfl⟩

/-- The calls of a run are balanced, whether it ends or not. -/
theorem tame (compiled : p.Compiled a places u) (formed : p.WellFormed)
    (analyzed : p.analyze = .ok a) (n : Nat) :
    Machine.Tame host n (u.spot.machine 0 [] u.memory, s) := by
  have evaluated := compiled.evaluates formed analyzed host n s
  cases known : p.evaluate a host n s with
  | none =>
    rw [known] at evaluated
    exact evaluated.tame
  | some r =>
    rw [known] at evaluated
    cases r with
    | ok _ s' =>
      obtain ⟨m, -, finishes⟩ := evaluated
      exact finishes.tame n
    | error e s' => exact evaluated.1.tame n

end Program.Compiled

/-- What is read from a console may be no value, but that is no fault of the code. -/
theorem Console.ask_ne_malformed {α : Type} {parse : List Char → Option α} {name text : String}
    {c c' : Console} : Console.ask parse name c ≠ .error (.malformed text) c' := by
  intro fails
  have own : ∀ line e, (readText name line).bind (parseWith parse name) = .error e →
      e ≠ .malformed text := by
    rintro line e found rfl
    unfold readText at found
    split at found
    · cases found
    · split at found
      · simp only [Except.bind, parseWith] at found
        split at found <;> cases found
      · cases found
  have wrote : write (prompt name) c = .ok () ⟨c.input, c.output ++ prompt name⟩ := rfl
  have took : takeLine ⟨c.input, c.output ++ prompt name⟩ =
      .ok (splitLine c.input).1 ⟨(splitLine c.input).2, c.output ++ prompt name⟩ := rfl
  cases found : (readText name (splitLine c.input).1).bind (parseWith parse name) with
  | ok v =>
    have asked : Console.ask parse name c =
        .ok v ⟨(splitLine c.input).2, c.output ++ prompt name⟩ := by
      simp only [Console.ask, bind, EStateM.bind, wrote, took, found]
      rfl
    rw [asked] at fails
    cases fails
  | error e =>
    have asked : Console.ask parse name c =
        .error e ⟨(splitLine c.input).2, c.output ++ prompt name⟩ := by
      simp only [Console.ask, bind, EStateM.bind, wrote, took, found]
      rfl
    rw [asked] at fails
    simp only [EStateM.Result.error.injEq] at fails
    exact own _ e found fails.1

/-- A console refuses only with errors of its own. -/
theorem Console.not_refuses_malformed (text : String) :
    ¬ Machine.Host.Refuses Console.answer (.malformed text) := by
  rintro ⟨r, h, h', fails⟩
  cases r with
  | printInt | printFloat | printBoolean => cases fails
  | inputInt | inputFloat | inputBoolean => exact Console.ask_ne_malformed fails
  | abortNoAlternative | abortNoFunctionReturn => cases fails

namespace Program

theorem sample_compiles : ∃ u, compile "demo" sample = .ok u :=
  except_of_isOk (by decide +kernel)

/-- A compiled program run on a console and the program itself end alike: with the same output, and
with the same error if there is one. If one of them does not end, neither does the other. -/
theorem run_iff_evaluate {package source : String} {u : ObjectUnit}
    (h : compile package source = .ok u) :
    ∃ p a, parse source = .ok p ∧ p.analyze = .ok a ∧
      ∀ (input : List UInt8) (r : EStateM.Result Error Console Unit),
        (∃ fuel, (u.runOnConsole fuel input).map Machine.outcome = some r) ↔
          ∃ fuel, p.evaluate a Console.answer fuel ⟨input, ""⟩ = some r := by
  obtain ⟨p, a, places, parsed, analyzed, formed, compiled⟩ := compile_ok h
  refine ⟨p, a, parsed, analyzed, fun input r => ⟨?_, ?_⟩⟩
  · rintro ⟨fuel, ended⟩
    obtain ⟨r', ran, rfl⟩ := Option.map_eq_some_iff.mp ended
    exact ⟨fuel, (compiled.of_execute formed analyzed ran).1⟩
  · rintro ⟨fuel, known⟩
    exact compiled.execute_of_evaluate formed analyzed known

theorem run_iff_evaluate_sample :
    ∃ u p a, compile "demo" sample = .ok u ∧ parse sample = .ok p ∧ p.analyze = .ok a ∧
      ∀ (input : List UInt8) (r : EStateM.Result Error Console Unit),
        (∃ fuel, (u.runOnConsole fuel input).map Machine.outcome = some r) ↔
          ∃ fuel, p.evaluate a Console.answer fuel ⟨input, ""⟩ = some r := by
  obtain ⟨u, compiled⟩ := sample_compiles
  obtain ⟨p, a, parsed, analyzed, same⟩ := run_iff_evaluate compiled
  exact ⟨u, p, a, compiled, parsed, analyzed, same⟩

/-- A compiled program does not go wrong. It never fails as broken code does, it leaves nothing on
the stack if it ends well, and every call in it is balanced. -/
theorem run_safe {package source : String} {u : ObjectUnit} (h : compile package source = .ok u)
    (input : List UInt8) :
    (∀ fuel text c, u.runOnConsole fuel input ≠ some (.error (.malformed text) c)) ∧
      (∀ fuel m c, u.runOnConsole fuel input = some (.ok m c) → m.stack = []) ∧
      ∃ m, Machine.start u = .ok m ∧ ∀ n, Machine.Tame Console.answer n (m, ⟨input, ""⟩) := by
  obtain ⟨p, a, places, parsed, analyzed, formed, compiled⟩ := compile_ok h
  refine ⟨fun fuel text c ran => ?_, fun fuel m c ran => ?_, _, compiled.start, fun n => ?_⟩
  · rcases (compiled.of_execute formed analyzed ran).2 with ⟨t, same⟩ | refuses
    · cases t <;> cases same
    · exact Console.not_refuses_malformed text refuses
  · exact (compiled.of_execute formed analyzed ran).2
  · exact compiled.tame formed analyzed n

theorem run_safe_sample : ∃ u, compile "demo" sample = .ok u ∧
    (∀ fuel text c, u.runOnConsole fuel [51, 10] ≠ some (.error (.malformed text) c)) ∧
      (∀ fuel m c, u.runOnConsole fuel [51, 10] = some (.ok m c) → m.stack = []) ∧
      ∃ m, Machine.start u = .ok m ∧
        ∀ n, Machine.Tame Console.answer n (m, ⟨[51, 10], ""⟩) := by
  obtain ⟨u, compiled⟩ := sample_compiles
  exact ⟨u, compiled, run_safe compiled [51, 10]⟩

end Program

end Guarded
