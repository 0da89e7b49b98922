import Guarded.Proofs.ScopeTables

/-!
Scopes as a stack of maps. The table of scopes keeps every scope that was ever entered, and which of
them are open shows only in the links from the current one outwards. Seen from outside it is a stack
of finite maps over a list of symbols that only gets longer: entering pushes an empty map, leaving
pops one, a declaration changes the map on top, and a name is looked up from the top down.

The numbers of scopes are not chosen by the stack. All that is asked of a new one is that it has not
been given out since the last reset.
-/

namespace Guarded

/-- What can be asked of a table of scopes. -/
inductive ScopeOp where
  | enter
  | exit
  | declare (symbol : Symbol)
  | lookup (name : String)
  | lookupLocal (name : String)
  | current
  | reset

/-- The name that is declared or looked up. -/
def ScopeOp.name? : ScopeOp → Option String
  | declare symbol => some symbol.name
  | lookup name | lookupLocal name => some name
  | enter | exit | current | reset => none

inductive ScopeAnswer where
  | done
  | scope (id : ScopeId)
  | symbol (found : Option SymbolId)
  | refused (e : Error)

namespace Scopes

def perform (s : Scopes) : ScopeOp → ScopeAnswer × Scopes
  | .enter => (.scope s.enter.current, s.enter)
  | .exit => (.done, s.exit)
  | .declare symbol =>
    match s.declare symbol with
    | .ok (id, s) => (.symbol (some id), s)
    | .error e => (.refused e, s)
  | .lookup name => (.symbol (s.lookup name), s)
  | .lookupLocal name => (.symbol (s.lookupLocal name), s)
  | .current => (.scope s.current, s)
  | .reset => (.done, empty)

/-- One operation after the other, with all answers. -/
def performAll (s : Scopes) : List ScopeOp → List ScopeAnswer × Scopes
  | [] => ([], s)
  | op :: ops =>
    let rest := (s.perform op).2.performAll ops
    ((s.perform op).1 :: rest.1, rest.2)

end Scopes

/-- A finite map from names to symbols, and the number of its scope. -/
structure NameMap where
  id : ScopeId
  names : List (String × SymbolId)

namespace NameMap

def get (m : NameMap) (name : String) : Option SymbolId :=
  m.names.lookup name

/-- The symbols that names are bound to. -/
def values (m : NameMap) : List SymbolId :=
  m.names.map Prod.snd

def bind (m : NameMap) (name : String) (id : SymbolId) : NameMap :=
  { m with names := (name, id) :: m.names }

theorem get_bind (m : NameMap) (name other : String) (id : SymbolId) :
    (m.bind name id).get other = if other = name then some id else m.get other := by
  rw [get, bind, List.lookup_cons]
  by_cases same : other = name
  · simp [same]
  · simp [same, get, beq_false_of_ne same]

theorem mem_values_of_get {m : NameMap} {name : String} {id : SymbolId}
    (found : m.get name = some id) : id ∈ m.values := by
  obtain ⟨before, after, split, -⟩ := List.lookup_eq_some_iff.mp found
  simp [values, split]

end NameMap

/-- Maps from the innermost scope outwards, the last one being that of the global scope, over the
symbols declared so far. -/
structure NameStack where
  top : NameMap
  outer : List NameMap
  symbols : List Symbol
  /-- The numbers of scopes given out since the last reset. -/
  given : List ScopeId

namespace NameStack

def maps (n : NameStack) : List NameMap :=
  n.top :: n.outer

/-- Only the global scope, and no symbol. -/
def initial : NameStack :=
  ⟨⟨0, []⟩, [], [], [0]⟩

/-- The symbol a name has in the topmost map that has it. -/
def find (n : NameStack) (name : String) : Option SymbolId :=
  n.maps.findSome? fun m => m.get name

/-- How a stack of maps may answer, and what becomes of it. -/
inductive Answers (n : NameStack) : ScopeOp → ScopeAnswer → NameStack → Prop where
  | enter {id : ScopeId} (new : id ∉ n.given) :
    Answers n .enter (.scope id) ⟨⟨id, []⟩, n.maps, n.symbols, id :: n.given⟩
  | exit {m : NameMap} {rest : List NameMap} (around : n.outer = m :: rest) :
    Answers n .exit .done { n with top := m, outer := rest }
  | exitGlobal (global : n.outer = []) : Answers n .exit .done n
  | declare {symbol : Symbol} (free : n.top.get symbol.name = none) :
    Answers n (.declare symbol) (.symbol (some n.symbols.length))
      { n with
        top := n.top.bind symbol.name n.symbols.length
        symbols := n.symbols ++ [symbol] }
  | refuse {symbol : Symbol} {id : SymbolId} (taken : n.top.get symbol.name = some id) :
    Answers n (.declare symbol) (.refused (.duplicateDefinition symbol.name symbol.span)) n
  | lookup {name : String} : Answers n (.lookup name) (.symbol (n.find name)) n
  | lookupLocal {name : String} : Answers n (.lookupLocal name) (.symbol (n.top.get name)) n
  | current : Answers n .current (.scope n.top.id) n
  | reset : Answers n .reset .done initial

/-- A sequence of operations with its answers. -/
inductive Runs : NameStack → List ScopeOp → List ScopeAnswer → NameStack → Prop where
  | nil {n : NameStack} : Runs n [] [] n
  | cons {n n' n'' : NameStack} {op : ScopeOp} {answer : ScopeAnswer} {ops : List ScopeOp}
      {answers : List ScopeAnswer} (first : n.Answers op answer n') (rest : Runs n' ops answers n'') :
      Runs n (op :: ops) (answer :: answers) n''

end NameStack

/-- From a scope outwards, the scopes hold these maps. -/
inductive Scopes.Stacked (s : Scopes) : List NameMap → Prop where
  | global {m : NameMap} {names : Std.TreeMap String SymbolId}
      (found : s.all[m.id]? = some ⟨none, names⟩) (same : ∀ name : String, names[name]? = m.get name) :
      Stacked s [m]
  | inner {m m' : NameMap} {rest : List NameMap} {names : Std.TreeMap String SymbolId}
      (found : s.all[m.id]? = some ⟨some m'.id, names⟩) (below : m'.id < m.id)
      (same : ∀ name : String, names[name]? = m.get name) (around : Stacked s (m' :: rest)) :
      Stacked s (m :: m' :: rest)

namespace Scopes.Stacked
variable {s s' : Scopes} {m : NameMap} {rest : List NameMap}

theorem head (h : s.Stacked (m :: rest)) : ∃ names : Std.TreeMap String SymbolId,
    s.all[m.id]? = some ⟨rest.head?.map NameMap.id, names⟩ ∧
      ∀ name : String, names[name]? = m.get name := by
  cases h with
  | global found same => exact ⟨_, found, same⟩
  | inner found below same around => exact ⟨_, found, same⟩

theorem low (h : s.Stacked (m :: rest)) : m.id < s.all.size := by
  obtain ⟨names, found, -⟩ := h.head
  exact (Array.getElem?_eq_some_iff.mp found).1

/-- The scopes around a scope have lower numbers, so the fuel lasts. -/
theorem lookupFrom (h : s.Stacked (m :: rest)) {fuel : Nat} (enough : m.id < fuel) (name : String) :
    s.lookupFrom name fuel m.id = (m :: rest).findSome? fun m => m.get name := by
  generalize maps : m :: rest = stack at h
  induction h generalizing m rest fuel with
  | global found same =>
    obtain ⟨rfl, rfl⟩ := List.cons.inj maps
    obtain ⟨fuel, rfl⟩ := Nat.exists_eq_add_one_of_ne_zero (Nat.ne_zero_of_lt enough)
    rw [Chain.lookupFrom_succ found, same]
    simp
  | inner found below same around ih =>
    obtain ⟨rfl, rfl⟩ := List.cons.inj maps
    obtain ⟨fuel, rfl⟩ := Nat.exists_eq_add_one_of_ne_zero (Nat.ne_zero_of_lt enough)
    rw [Chain.lookupFrom_succ found, same, List.findSome?_cons, Option.bind_some,
      ih (below.trans_le (Nat.lt_succ_iff.mp enough)) rfl]
    cases m.get name <;> rfl

/-- What happens above a scope makes no difference to it. -/
theorem carry (h : s.Stacked (m :: rest)) (same : ∀ i ≤ m.id, s'.all[i]? = s.all[i]?) :
    s'.Stacked (m :: rest) := by
  generalize maps : m :: rest = stack at h
  induction h generalizing m rest with
  | global found names =>
    obtain ⟨rfl, rfl⟩ := List.cons.inj maps
    exact .global ((same _ le_rfl).trans found) names
  | inner found below names around ih =>
    obtain ⟨rfl, rfl⟩ := List.cons.inj maps
    exact .inner ((same _ le_rfl).trans found) below names
      (ih (fun i le => same i (le.trans below.le)) rfl)

end Scopes.Stacked

/-- The table of scopes shows the stack: the open scopes hold its maps, and exactly the numbers of
all scopes have been given out. -/
structure Scopes.Shows (s : Scopes) (n : NameStack) : Prop where
  current : s.current = n.top.id
  maps : s.Stacked n.maps
  symbols : n.symbols = s.symbols.toList
  given : ∀ id, id ∈ n.given ↔ id < s.all.size

namespace Scopes.Shows
variable {s : Scopes} {n : NameStack}

theorem empty : Scopes.empty.Shows .initial where
  current := rfl
  maps := .global rfl fun _ => Std.TreeMap.getElem?_emptyc
  symbols := rfl
  given id := by simp [NameStack.initial, Scopes.empty]

theorem lookupLocal (h : s.Shows n) (name : String) : s.lookupLocal name = n.top.get name := by
  obtain ⟨names, found, same⟩ := h.maps.head
  rw [Scopes.lookupLocal, nameIn, h.current, found]
  exact same name

theorem lookup (h : s.Shows n) (name : String) : s.lookup name = n.find name := by
  rw [Scopes.lookup, h.current]
  exact h.maps.lookupFrom h.maps.low name

theorem enter (h : s.Shows n) : s.all.size ∉ n.given ∧
    s.enter.Shows ⟨⟨s.all.size, []⟩, n.maps, n.symbols, s.all.size :: n.given⟩ := by
  have low : n.top.id < s.all.size := h.maps.low
  have old : s.enter.Stacked n.maps := by
    refine h.maps.carry fun i le => ?_
    exact (Array.getElem?_push_lt (le.trans_lt low)).trans (Array.getElem?_eq_getElem _).symm
  have opened : s.enter.all[s.all.size]? = some ⟨some n.top.id, ∅⟩ := by
    simp [Scopes.enter, h.current]
  refine ⟨fun mem => Nat.lt_irrefl _ ((h.given _).mp mem), rfl, ?_, h.symbols, fun id => ?_⟩
  · exact .inner opened low (fun _ => Std.TreeMap.getElem?_emptyc) old
  · rw [List.mem_cons, h.given, Scopes.enter, Array.size_push, Nat.lt_succ_iff_lt_or_eq]
    exact or_comm

theorem exit (h : s.Shows n) {m : NameMap} {rest : List NameMap} (around : n.outer = m :: rest) :
    s.exit.Shows { n with top := m, outer := rest } := by
  have maps := h.maps
  rw [NameStack.maps, around] at maps
  cases maps with
  | inner found below same outer =>
    have left : s.exit = { s with current := m.id } := by
      simp [Scopes.exit, h.current, found]
    rw [left]
    exact ⟨rfl, outer.carry fun _ _ => rfl, h.symbols, h.given⟩

/-- The global scope is never left. -/
theorem exit_global (h : s.Shows n) (global : n.outer = []) : s.exit = s := by
  have maps := h.maps
  rw [NameStack.maps, global] at maps
  cases maps with
  | global found same => simp [Scopes.exit, h.current, found]

theorem declare (h : s.Shows n) {symbol : Symbol} (free : n.top.get symbol.name = none) :
    ∃ s', s.declare symbol = .ok (n.symbols.length, s') ∧
      s'.Shows { n with
        top := n.top.bind symbol.name n.symbols.length
        symbols := n.symbols ++ [symbol] } := by
  have size : n.symbols.length = s.symbols.size := by rw [h.symbols, Array.length_toList]
  have made : s.declare symbol = .ok (s.symbols.size, { s with
      all := s.all.modify s.current fun sc =>
        { sc with names := sc.names.insert symbol.name s.symbols.size }
      symbols := s.symbols.push symbol }) := by
    rw [Scopes.declare, h.lookupLocal, free]
  rw [size]
  refine ⟨_, made, h.current, ?_, ?_, fun id => ?_⟩
  · obtain ⟨names, found, same⟩ := h.maps.head
    have own : (s.all.modify s.current fun sc =>
        { sc with names := sc.names.insert symbol.name s.symbols.size })[n.top.id]? =
          some ⟨n.outer.head?.map NameMap.id, names.insert symbol.name s.symbols.size⟩ := by
      simp [Array.getElem?_modify, h.current, found]
    have bound : ∀ name : String, (names.insert symbol.name s.symbols.size)[name]? =
        (n.top.bind symbol.name s.symbols.size).get name := by
      intro name
      rw [NameMap.get_bind, Std.TreeMap.getElem?_insert, same]
      by_cases eq : name = symbol.name
      · simp [eq]
      · simp [eq, Ne.symm eq]
    have maps := h.maps
    unfold NameStack.maps at maps ⊢
    generalize n.outer = outer at maps own
    cases maps with
    | global _ _ => exact .global own bound
    | inner _ below _ around =>
      refine .inner own below bound (around.carry fun i le => ?_)
      have other : s.current ≠ i := h.current ▸ Nat.ne_of_gt (le.trans_lt below)
      simp [Array.getElem?_modify, other]
  · simp [h.symbols]
  · rw [h.given, Array.size_modify]

theorem refuse (h : s.Shows n) {symbol : Symbol} {id : SymbolId}
    (taken : n.top.get symbol.name = some id) :
    s.declare symbol = .error (.duplicateDefinition symbol.name symbol.span) := by
  rw [Scopes.declare, h.lookupLocal, taken]

/-- One operation: the table answers as the stack may, and shows the stack that comes of it. -/
theorem perform (h : s.Shows n) (op : ScopeOp) :
    ∃ n', n.Answers op (s.perform op).1 n' ∧ (s.perform op).2.Shows n' := by
  cases op with
  | enter => exact ⟨_, .enter h.enter.1, h.enter.2⟩
  | exit =>
    cases around : n.outer with
    | nil =>
      simp only [Scopes.perform, h.exit_global around]
      exact ⟨n, .exitGlobal around, h⟩
    | cons m rest => exact ⟨_, .exit around, h.exit around⟩
  | declare symbol =>
    cases found : n.top.get symbol.name with
    | none =>
      obtain ⟨s', made, shows⟩ := h.declare found
      simp only [Scopes.perform, made]
      exact ⟨_, .declare found, shows⟩
    | some id =>
      simp only [Scopes.perform, h.refuse found]
      exact ⟨n, .refuse found, h⟩
  | lookup name =>
    simp only [Scopes.perform, h.lookup]
    exact ⟨n, .lookup, h⟩
  | lookupLocal name =>
    simp only [Scopes.perform, h.lookupLocal]
    exact ⟨n, .lookupLocal, h⟩
  | current =>
    simp only [Scopes.perform, h.current]
    exact ⟨n, .current, h⟩
  | reset => exact ⟨_, .reset, .empty⟩

/-- Any sequence of operations. -/
theorem performAll (h : s.Shows n) (ops : List ScopeOp) :
    ∃ n', n.Runs ops (s.performAll ops).1 n' ∧ (s.performAll ops).2.Shows n' := by
  induction ops generalizing s n with
  | nil => exact ⟨n, .nil, h⟩
  | cons op ops ih =>
    obtain ⟨n', first, shows⟩ := h.perform op
    obtain ⟨n'', rest, shows⟩ := ih shows
    exact ⟨n'', .cons first rest, shows⟩

end Scopes.Shows

namespace NameStack
variable {n n' : NameStack} {op : ScopeOp} {answer : ScopeAnswer} {ops : List ScopeOp}
variable {answers : List ScopeAnswer} {m : NameMap}

/-- Scopes that are open have different numbers, names stand for symbols of that name, and different
scopes have different symbols. -/
structure Sound (n : NameStack) : Prop where
  given : ∀ m ∈ n.maps, m.id ∈ n.given
  scopes : (n.maps.map NameMap.id).Nodup
  symbols : (n.maps.flatMap NameMap.values).Nodup
  named : ∀ m ∈ n.maps, ∀ (name : String) (id : SymbolId), (name, id) ∈ m.names →
    ∃ symbol, n.symbols[id]? = some symbol ∧ symbol.name = name

theorem Sound.initial : initial.Sound where
  given := by simp [maps, NameStack.initial]
  scopes := by simp [maps, NameStack.initial]
  symbols := by simp [maps, NameStack.initial, NameMap.values]
  named := by simp [maps, NameStack.initial]

theorem Sound.low (h : n.Sound) {m : NameMap} (mem : m ∈ n.maps) {id : SymbolId}
    (value : id ∈ m.values) : id < n.symbols.length := by
  obtain ⟨⟨name, id⟩, bound, rfl⟩ := List.mem_map.mp value
  obtain ⟨symbol, found, -⟩ := h.named m mem name id bound
  exact (List.getElem?_eq_some_iff.mp found).1

/-- A new symbol has a number that none has yet. -/
theorem Sound.declare (h : n.Sound) (symbol : Symbol) :
    Sound { n with
      top := n.top.bind symbol.name n.symbols.length
      symbols := n.symbols ++ [symbol] } := by
  have maps {m : NameMap} (mem : m ∈ n.top.bind symbol.name n.symbols.length :: n.outer) :
      m = n.top.bind symbol.name n.symbols.length ∨ m ∈ n.maps :=
    (List.mem_cons.mp mem).imp_right (List.mem_cons_of_mem _)
  refine ⟨fun m mem => ?_, h.scopes, ?_, fun m mem name id bound => ?_⟩
  · rcases maps mem with rfl | mem
    · exact h.given n.top List.mem_cons_self
    · exact h.given m mem
  · have new : n.symbols.length ∉ n.maps.flatMap NameMap.values := by
      intro used
      obtain ⟨m, mem, value⟩ := List.mem_flatMap.mp used
      exact Nat.lt_irrefl _ (h.low mem value)
    exact List.nodup_cons.mpr ⟨new, h.symbols⟩
  · have old (bound : ∃ m ∈ n.maps, (name, id) ∈ m.names) :
        ∃ s, (n.symbols ++ [symbol])[id]? = some s ∧ s.name = name := by
      obtain ⟨m, mem, bound⟩ := bound
      obtain ⟨s, found, named⟩ := h.named m mem name id bound
      exact ⟨s, by rw [List.getElem?_append_left (List.getElem?_eq_some_iff.mp found).1, found],
        named⟩
    rcases maps mem with rfl | mem
    · rcases List.mem_cons.mp bound with same | bound
      · obtain ⟨rfl, rfl⟩ := Prod.mk.inj same
        exact ⟨symbol, by simp, rfl⟩
      · exact old ⟨n.top, List.mem_cons_self, bound⟩
    · exact old ⟨m, mem, bound⟩

theorem Sound.exit (h : n.Sound) {rest : List NameMap} (around : n.outer = m :: rest) :
    Sound { n with top := m, outer := rest } := by
  have maps : n.maps = n.top :: m :: rest := by rw [NameStack.maps, around]
  have inside {m' : NameMap} (mem : m' ∈ m :: rest) : m' ∈ n.maps :=
    maps ▸ List.mem_cons_of_mem _ mem
  have scopes := h.scopes
  have symbols := h.symbols
  rw [maps] at scopes symbols
  exact ⟨fun m' mem => h.given m' (inside mem), (List.nodup_cons.mp scopes).2,
    (List.nodup_append.mp symbols).2.1, fun m' mem => h.named m' (inside mem)⟩

theorem Answers.sound (step : n.Answers op answer n') (h : n.Sound) : n'.Sound := by
  cases step with
  | @enter id new =>
    refine ⟨List.forall_mem_cons.mpr ⟨List.mem_cons_self, fun m mem => ?_⟩, ?_, h.symbols,
      List.forall_mem_cons.mpr ⟨by simp, h.named⟩⟩
    · exact List.mem_cons_of_mem _ (h.given m mem)
    · refine List.nodup_cons.mpr ⟨fun used => ?_, h.scopes⟩
      obtain ⟨m, mem, rfl⟩ := List.mem_map.mp used
      exact new (h.given m mem)
  | exit around => exact h.exit around
  | @declare symbol free => exact h.declare symbol
  | exitGlobal | refuse | lookup | lookupLocal | current => exact h
  | reset => exact .initial

theorem Runs.sound (run : n.Runs ops answers n') (h : n.Sound) : n'.Sound := by
  induction run with
  | nil => exact h
  | cons first rest ih => exact ih (first.sound h)

/-- A symbol that is answered has the name that was asked for. -/
theorem Answers.named {name : String} {id : SymbolId}
    (step : n.Answers op (.symbol (some id)) n') (h : n.Sound) (asked : op.name? = some name) :
    ∃ symbol, n'.symbols[id]? = some symbol ∧ symbol.name = name := by
  have found {m : NameMap} (mem : m ∈ n.maps) (got : m.get name = some id) :
      ∃ symbol, n.symbols[id]? = some symbol ∧ symbol.name = name := by
    obtain ⟨before, after, split, -⟩ := List.lookup_eq_some_iff.mp got
    exact h.named m mem name id (by simp [split])
  generalize result : ScopeAnswer.symbol (some id) = answer at step
  cases step with
  | declare free =>
    obtain rfl := Option.some.inj asked
    obtain rfl := Option.some.inj (ScopeAnswer.symbol.inj result)
    exact ⟨_, by simp, rfl⟩
  | lookup =>
    obtain rfl := Option.some.inj asked
    obtain ⟨m, mem, got⟩ := List.exists_of_findSome?_eq_some (ScopeAnswer.symbol.inj result).symm
    exact found mem got
  | lookupLocal =>
    obtain rfl := Option.some.inj asked
    exact found List.mem_cons_self (ScopeAnswer.symbol.inj result).symm
  | enter | exit | exitGlobal | refuse | current | reset => cases result

/-- The map has been on the stack and is not there any more, nor is any of its symbols. -/
structure Without (n : NameStack) (m : NameMap) : Prop where
  given : m.id ∈ n.given
  low : ∀ id ∈ m.values, id < n.symbols.length
  scopes : ∀ m' ∈ n.maps, m'.id ≠ m.id
  symbols : ∀ m' ∈ n.maps, ∀ id ∈ m'.values, id ∉ m.values

theorem Sound.without (h : n.Sound) {rest : List NameMap} (around : n.outer = m :: rest) :
    Without { n with top := m, outer := rest } n.top := by
  have maps : n.maps = n.top :: m :: rest := by rw [NameStack.maps, around]
  have scopes := h.scopes
  have symbols := h.symbols
  rw [maps] at scopes symbols
  refine ⟨h.given n.top List.mem_cons_self, fun id value => h.low List.mem_cons_self value, ?_, ?_⟩
  · intro m' mem same
    exact (List.nodup_cons.mp scopes).1 (same ▸ List.mem_map_of_mem mem)
  · intro m' mem id value own
    have others : id ∈ (m :: rest).flatMap NameMap.values := List.mem_flatMap.mpr ⟨m', mem, value⟩
    exact (List.nodup_append.mp symbols).2.2 id own id others rfl

/-- What has been left does not come back before a reset. -/
theorem Answers.without (step : n.Answers op answer n') (kept : op ≠ .reset) (h : n.Without m) :
    n'.Without m := by
  cases step with
  | @enter id new =>
    refine ⟨List.mem_cons_of_mem _ h.given, h.low, ?_, ?_⟩
    · refine List.forall_mem_cons.mpr ⟨?_, h.scopes⟩
      rintro rfl
      exact new h.given
    · exact List.forall_mem_cons.mpr ⟨by simp [NameMap.values], h.symbols⟩
  | @exit m' rest around =>
    have inside {k : NameMap} (mem : k ∈ m' :: rest) : k ∈ n.maps := by
      rw [maps, around]
      exact List.mem_cons_of_mem _ mem
    exact ⟨h.given, h.low, fun k mem => h.scopes k (inside mem),
      fun k mem => h.symbols k (inside mem)⟩
  | @declare symbol free =>
    refine ⟨h.given, fun id own => ?_, ?_, ?_⟩
    · rw [List.length_append]
      exact (h.low id own).trans (Nat.lt_succ_self _)
    · exact List.forall_mem_cons.mpr ⟨h.scopes n.top List.mem_cons_self,
        fun k mem => h.scopes k (List.mem_cons_of_mem _ mem)⟩
    · refine List.forall_mem_cons.mpr ⟨fun id value own => ?_,
        fun k mem => h.symbols k (List.mem_cons_of_mem _ mem)⟩
      rcases List.mem_cons.mp value with rfl | value
      · exact Nat.lt_irrefl _ (h.low _ own)
      · exact h.symbols n.top List.mem_cons_self id value own
  | exitGlobal | refuse | lookup | lookupLocal | current => exact h
  | reset => exact absurd rfl kept

theorem Runs.without (run : n.Runs ops answers n') (kept : .reset ∉ ops) (h : n.Without m) :
    n'.Without m := by
  induction run with
  | nil => exact h
  | cons first rest ih =>
    rw [List.mem_cons, not_or] at kept
    exact ih kept.2 (first.without (Ne.symm kept.1) h)

end NameStack

namespace Scopes

/-- The table of scopes is a stack of maps, whatever operations are made on it from the start. All
answers are those of the stack, over the same symbols. A symbol that is answered is the one declared
under the name asked for. A scope that has been left is never current again before a reset, and what
was declared in it is not found any more. -/
theorem performs_as_stack {ops : List ScopeOp} {answers : List ScopeAnswer} {s : Scopes}
    (performed : empty.performAll ops = (answers, s)) :
    (∃ n, NameStack.initial.Runs ops answers n ∧ n.symbols = s.symbols.toList) ∧
      (∀ (op : ScopeOp) (name : String) (id : SymbolId), op.name? = some name →
        (s.perform op).1 = .symbol (some id) →
        ∃ symbol, (s.perform op).2.symbols[id]? = some symbol ∧ symbol.name = name) ∧
      ∀ more : List ScopeOp, .reset ∉ more → s.exit.current ≠ s.current →
        (s.exit.performAll more).2.current ≠ s.current ∧
          ∀ (name name' : String) (id : SymbolId), s.lookupLocal name = some id →
            (s.exit.performAll more).2.lookup name' ≠ some id := by
  obtain ⟨n, run, shows⟩ := Shows.empty.performAll ops
  rw [performed] at run shows
  have sound := run.sound .initial
  refine ⟨⟨n, run, shows.symbols⟩, fun op name id asked answer => ?_, fun more kept left => ?_⟩
  · obtain ⟨n', step, shows'⟩ := shows.perform op
    rw [answer] at step
    have named := step.named sound asked
    rwa [shows'.symbols, Array.getElem?_toList] at named
  · cases around : n.outer with
    | nil => exact absurd (congrArg current (shows.exit_global around)) left
    | cons m rest =>
      obtain ⟨n', run', shows'⟩ := (shows.exit around).performAll more
      have without := run'.without kept (sound.without around)
      refine ⟨?_, fun name name' id own found => ?_⟩
      · rw [shows'.current, shows.current]
        exact without.scopes n'.top List.mem_cons_self
      · rw [shows.lookupLocal] at own
        rw [shows'.lookup] at found
        obtain ⟨m', mem, got⟩ := List.exists_of_findSome?_eq_some found
        exact without.symbols m' mem id (NameMap.mem_values_of_get got)
          (NameMap.mem_values_of_get own)

/-- A name is declared outside and inside of a scope. -/
def shadowing : List ScopeOp :=
  [.declare ⟨"a", .variable, .int, none, .nowhere⟩, .enter,
    .declare ⟨"a", .array, .float, none, .nowhere⟩]

theorem performs_as_stack_shadowing :
    ∃ answers s, empty.performAll shadowing = (answers, s) ∧
      answers = [.symbol (some 0), .scope 1, .symbol (some 1)] ∧
      (∃ n, NameStack.initial.Runs shadowing answers n ∧ n.symbols = s.symbols.toList) ∧
      s.lookupLocal "a" = some 1 ∧ s.exit.current ≠ s.current ∧
      (s.exit.performAll [.exit, .enter]).2.current ≠ s.current ∧
      (s.exit.performAll [.exit, .enter]).2.lookup "a" ≠ some 1 := by
  obtain ⟨run, -, gone⟩ := performs_as_stack (rfl : empty.performAll shadowing = (_, _))
  have left : (empty.performAll shadowing).2.exit.current ≠ (empty.performAll shadowing).2.current := by
    decide
  obtain ⟨current, lost⟩ := gone [.exit, .enter] (by simp) left
  have own : (empty.performAll shadowing).2.lookupLocal "a" = some 1 := by decide
  exact ⟨_, _, rfl, rfl, run, own, left, current, lost "a" "a" 1 own⟩

end Scopes

end Guarded
