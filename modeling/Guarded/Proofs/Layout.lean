import Guarded.Proofs.Code
import Std.Data.String.ToNat

/-!
The layout of object code. Symbols get their places on first use and keep them, so a piece of code
means the same in the finished unit as it did when it was written down. Fields and routines have
names of their own, and within a routine every local symbol has a slot of its own.

Only one thing can go wrong on the way: a routine with more locals than there are slots.
-/

namespace Guarded

abbrev Places := Std.TreeMap SymbolId Place

namespace Places

theorem getElem?_insert (places : Places) (x y : SymbolId) (place : Place) :
    (places.insert x place)[y]? = if x = y then some place else places[y]? := by
  rw [Std.TreeMap.getElem?_insert]
  simp only [compare_eq_iff_eq]

/-- Whatever has a place keeps it. -/
def Below (places places' : Places) : Prop :=
  ∀ (x : SymbolId) (place : Place), places[x]? = some place → places'[x]? = some place

theorem Below.refl (places : Places) : places.Below places :=
  fun _ _ found => found

theorem Below.trans {p q r : Places} (first : Below p q) (second : Below q r) : Below p r :=
  fun x place found => second x place (first x place found)

theorem below_insert {places : Places} {x : SymbolId} (free : places[x]? = none) (place : Place) :
    places.Below (places.insert x place) := by
  intro y other found
  rw [getElem?_insert, if_neg]
  · exact found
  · rintro rfl
    simp [free] at found

/-- A new place is the only one that comes to be: any other was there before. -/
theorem getElem?_insert_of_ne {places : Places} {x : SymbolId} (free : places[x]? = none)
    {place other : Place} (ne : place ≠ other) (y : SymbolId) :
    (places.insert x place)[y]? = some other ↔ places[y]? = some other := by
  rw [getElem?_insert]
  by_cases same : x = y
  · subst same
    simp [free, ne]
  · rw [if_neg same]

/-- The local symbols of the method `here`, each at its slot. -/
def Slots (a : Analysis) (places : Places) (here : Option SymbolId) (syms : List SymbolId) : Prop :=
  ∀ (n : Nat) (x : SymbolId), syms[n]? = some x ↔
    places[x]? = some (.slot n) ∧ ∃ m, here = some m ∧ a.ownerOf x = some m

namespace Slots
variable {a : Analysis} {places places' : Places} {here : Option SymbolId} {syms : List SymbolId}

theorem nodup (h : Slots a places here syms) : syms.Nodup := by
  refine List.nodup_iff_getElem?_ne_getElem?.mpr fun i j lt low same => ?_
  obtain ⟨x, found⟩ := Option.isSome_iff_exists.mp (show syms[j]?.isSome by simpa using low)
  have left := ((h j x).mp found).1
  have right := ((h i x).mp (same.trans found)).1
  simp only [left, Option.some.injEq, Place.slot.injEq] at right
  omega

theorem owner (h : Slots a places here syms) {x : SymbolId} (mem : x ∈ syms) :
    ∃ m, here = some m ∧ a.ownerOf x = some m := by
  obtain ⟨n, found⟩ := List.mem_iff_getElem?.mp mem
  exact ((h n x).mp found).2

/-- The slots stay as long as no other local of the method gets a place. -/
theorem mono (h : Slots a places here syms) (below : places.Below places')
    (others : ∀ (x m : SymbolId) (n : Nat), places[x]? = none → places'[x]? = some (.slot n) →
      here = some m → a.ownerOf x ≠ some m) : Slots a places' here syms := by
  intro n x
  rw [h n x]
  constructor
  · rintro ⟨found, own⟩
    exact ⟨below x _ found, own⟩
  · rintro ⟨found, m, rfl, own⟩
    refine ⟨?_, m, rfl, own⟩
    cases before : places[x]? with
    | none => exact absurd own (others x m n before found rfl)
    | some place => rw [← below x place before, found]

/-- A local without a place takes the slot after those in use. -/
theorem snoc (h : Slots a places here syms) {id m : SymbolId} (free : places[id]? = none)
    (inside : here = some m) (own : a.ownerOf id = some m) :
    Slots a (places.insert id (.slot syms.length)) here (syms ++ [id]) := by
  intro n x
  rw [getElem?_insert]
  by_cases same : id = x
  · subst same
    have absent : syms[n]? ≠ some id := by
      intro found
      simp [((h n id).mp found).1] at free
    rw [if_pos rfl]
    constructor
    · intro found
      have high : ¬ n < syms.length := by
        intro low
        rw [List.getElem?_append_left low] at found
        exact absent found
      have low : n < (syms ++ [id]).length := (List.getElem?_eq_some_iff.mp found).1
      have last : syms.length = n := by
        rw [List.length_append, List.length_singleton] at low
        omega
      exact ⟨by rw [last], m, inside, own⟩
    · rintro ⟨found, -⟩
      obtain rfl : syms.length = n := by simpa using found
      simp
  · rw [if_neg same, ← h n x]
    by_cases low : n < syms.length
    · rw [List.getElem?_append_left low]
    · rw [List.getElem?_append_right (Nat.le_of_not_lt low),
        List.getElem?_eq_none (Nat.le_of_not_lt low)]
      refine iff_of_false (fun found => ?_) (by simp)
      exact same (List.mem_singleton.mp (List.mem_of_getElem? found)).symm

end Slots

end Places

namespace Op

/-- The instruction an item becomes at a position. -/
def Becomes (a : Analysis) (places : Places) (pos : Nat) : Op → Instr → Prop
  | .instr i, j => j = i
  | .load id, j =>
    ∃ place slot, places[id]? = some place ∧ Assemble.slotOf a id = .ok slot ∧
      j = Assemble.loadInstr place slot
  | .store id, j =>
    ∃ place slot, places[id]? = some place ∧ Assemble.slotOf a id = .ok slot ∧
      j = Assemble.storeInstr place slot
  | .invoke id, j => ∃ name, places[id]? = some (.routine name) ∧ j = .invoke name
  | .jump k distance, j => j = k.instr (pos + distance).toNat
  | .method .., _ | .fault _, _ => False

/-- A piece of code stands at a position of a routine. -/
def CodeAt (a : Analysis) (places : Places) (code : Array Instr) : Nat → List Op → Prop
  | _, [] => True
  | pos, op :: ops =>
    (op.size = 1 → ∃ i, code[pos]? = some i ∧ op.Becomes a places pos i) ∧
      CodeAt a places code (pos + op.size) ops

theorem codeAt_append {a : Analysis} {places : Places} {code : Array Instr} {pos : Nat}
    {xs ys : List Op} :
    CodeAt a places code pos (xs ++ ys) ↔
      CodeAt a places code pos xs ∧ CodeAt a places code (pos + sizeAll xs) ys := by
  induction xs generalizing pos with
  | nil => simp [CodeAt]
  | cons x xs ih => simp [CodeAt, ih, and_assoc, Nat.add_assoc]

end Op

namespace Draft

/-- The instructions written so far. -/
def instrs (d : Draft) : List Instr :=
  d.code.toList

/-- No branch of the draft holds a label. -/
def Plain (d : Draft) : Prop :=
  d.fixups = #[]

theorem emit_instrs (d : Draft) (i : Instr) : (d.emit i).instrs = d.instrs ++ [i] := by
  simp [instrs, emit]

theorem size_code (d : Draft) : d.code.size = d.instrs.length := by
  simp [instrs]

/-- The routine that a draft without labels becomes. -/
def toRoutine (d : Draft) : Routine :=
  ⟨d.name, d.params, d.result, d.locals, d.code⟩

/-- A draft without labels becomes a routine as it is. -/
theorem Plain.finish {d : Draft} (h : d.Plain) : d.finish = .ok d.toRoutine := by
  rw [Draft.finish, h]
  rfl

end Draft

/-- A name made unique by a running number. -/
def numbered (base : String) (k : Nat) : String :=
  s!"{base}${k}"

theorem numbered_toList (base : String) (k : Nat) :
    (numbered base k).toList = base.toList ++ '$' :: (Nat.repr k).toList := by
  simp [numbered, toString]

theorem dollar_mem_numbered (base : String) (k : Nat) : '$' ∈ (numbered base k).toList := by
  simp [numbered_toList]

theorem numbered_inj {base base' : String} {k k' : Nat} (h : numbered base k = numbered base' k') :
    k = k' := by
  have plain (n : Nat) : ∀ c ∈ (Nat.repr n).toList.reverse, (c != '$') = true := by
    intro c mem
    rw [List.mem_reverse, Nat.toList_repr] at mem
    have digit := Nat.isDigit_of_mem_toDigits (by decide) (by decide) mem
    by_contra dollar
    obtain rfl : c = '$' := by simpa using dollar
    revert digit
    decide
  -- The number is what stands after the last dollar.
  have tail (b : String) (n : Nat) :
      ((numbered b n).toList.reverse.takeWhile (· != '$')).reverse = (Nat.repr n).toList := by
    rw [numbered_toList, List.reverse_append, List.reverse_cons, List.append_assoc,
      List.takeWhile_append_of_pos (plain n)]
    simp
  have same := (tail base k).symm.trans ((by rw [h]) : _ = _) |>.trans (tail base' k')
  exact Nat.repr_injective (String.toList_inj.mp same)

namespace Assembly

/-- What always holds while a unit is put together. -/
structure Tidy (a : Analysis) (s : Assembly) : Prop where
  main : entryName ∈ s.taken
  taken : ∀ n ∈ s.taken, '$' ∉ n.toList ∨ ∃ base k, n = numbered base k ∧ k < s.counter
  routines : ∀ (x : SymbolId) (n : String), s.places[x]? = some (.routine n) →
    a.Callable x ∧ n ∈ s.taken ∧ n ≠ entryName ∧
      (n = Assemble.nameOf a x ∨ ∃ k, n = numbered (Assemble.nameOf a x) k) ∧
      ∀ (y : SymbolId), s.places[y]? = some (.routine n) → y = x
  fields : ∀ (x : SymbolId) (f : String), s.places[x]? = some (.field f) →
    a.Storable x ∧ a.ownerOf x = none ∧
      (∃ slot, Assemble.slotOf a x = .ok slot ∧ ⟨f, slot⟩ ∈ s.fields.toList) ∧
      ∀ (y : SymbolId), s.places[y]? = some (.field f) → y = x
  listed : ∀ f ∈ s.fields.toList, (∃ base k, f.name = numbered base k ∧ k < s.counter) ∧
    ∃ x : SymbolId, s.places[x]? = some (.field f.name)
  distinct : (s.fields.toList.map Field.name).Nodup
  slots : ∀ (x : SymbolId) (n : Nat), s.places[x]? = some (.slot n) →
    a.Storable x ∧ (a.ownerOf x).isSome = true

/-- A symbol takes the next slot of the routine under construction. -/
def withSlot (s : Assembly) (id : SymbolId) (slot : Slot) : Assembly :=
  { s with
    draft := { s.draft with locals := s.draft.locals.push slot }
    places := s.places.insert id (.slot s.draft.locals.size) }

/-- A symbol gets a field. -/
def withField (s : Assembly) (name : String) (id : SymbolId) (slot : Slot) : Assembly :=
  { s with
    places := s.places.insert id (.field (numbered name s.counter))
    fields := s.fields.push ⟨numbered name s.counter, slot⟩
    counter := s.counter + 1 }

/-- A method gets its routine. -/
def withRoutine (s : Assembly) (id : SymbolId) (plain : String) : Assembly :=
  let name := if s.taken.contains plain then numbered plain s.counter else plain
  { s with
    places := s.places.insert id (.routine name)
    taken := name :: s.taken
    counter := if s.taken.contains plain then s.counter + 1 else s.counter }

/-- The name a routine gets, which has a number if the plain name is in use. -/
def routineName (s : Assembly) (plain : String) : String :=
  if s.taken.contains plain then numbered plain s.counter else plain

theorem routineName_form (s : Assembly) (plain : String) :
    s.routineName plain = plain ∨ ∃ k, s.routineName plain = numbered plain k := by
  unfold routineName
  split
  · exact Or.inr ⟨_, rfl⟩
  · exact Or.inl rfl

theorem counter_le_withRoutine (s : Assembly) (id : SymbolId) (plain : String) :
    s.counter ≤ (s.withRoutine id plain).counter := by
  simp only [withRoutine]
  split <;> omega

namespace Tidy
variable {a : Analysis} {s : Assembly}

theorem withSlot (tidy : s.Tidy a) {id : SymbolId} (free : s.places[id]? = none)
    (storable : a.Storable id) (isLocal : (a.ownerOf id).isSome = true) (slot : Slot) :
    (s.withSlot id slot).Tidy a where
  main := tidy.main
  taken := tidy.taken
  routines x n found := by
    have apart : Place.slot s.draft.locals.size ≠ .routine n := by simp
    have old := Places.getElem?_insert_of_ne free apart
    obtain ⟨callable, mem, entry, named, only⟩ := tidy.routines x n ((old x).mp found)
    exact ⟨callable, mem, entry, named, fun y found' => only y ((old y).mp found')⟩
  fields x f found := by
    have apart : Place.slot s.draft.locals.size ≠ .field f := by simp
    have old := Places.getElem?_insert_of_ne free apart
    obtain ⟨storable', owner, field, only⟩ := tidy.fields x f ((old x).mp found)
    exact ⟨storable', owner, field, fun y found' => only y ((old y).mp found')⟩
  listed f mem := by
    obtain ⟨numbering, x, found⟩ := tidy.listed f mem
    exact ⟨numbering, x, Places.below_insert free _ x _ found⟩
  distinct := tidy.distinct
  slots x n found := by
    simp only [Assembly.withSlot, Places.getElem?_insert] at found
    split at found
    · rename_i same
      exact same ▸ ⟨storable, isLocal⟩
    · exact tidy.slots x n found

theorem withField (tidy : s.Tidy a) {id : SymbolId} (free : s.places[id]? = none)
    (storable : a.Storable id) (isGlobal : a.ownerOf id = none) (name : String) {slot : Slot}
    (ok : Assemble.slotOf a id = .ok slot) : (s.withField name id slot).Tidy a := by
  have fresh : ∀ f ∈ s.fields.toList, f.name ≠ numbered name s.counter := by
    intro f mem same
    obtain ⟨⟨base, k, form, low⟩, -⟩ := tidy.listed f mem
    have := numbered_inj (form.symm.trans same)
    omega
  have unused : ∀ (x : SymbolId), s.places[x]? ≠ some (.field (numbered name s.counter)) := by
    intro x found
    obtain ⟨-, -, ⟨slot', -, mem⟩, -⟩ := tidy.fields x _ found
    exact fresh _ mem rfl
  refine ⟨tidy.main, ?_, ?_, ?_, ?_, ?_, ?_⟩
  · intro n mem
    refine (tidy.taken n mem).imp_right ?_
    rintro ⟨base, k, form, low⟩
    exact ⟨base, k, form, Nat.lt_succ_of_lt low⟩
  · intro x n found
    have apart : Place.field (numbered name s.counter) ≠ .routine n := by simp
    have old := Places.getElem?_insert_of_ne free apart
    obtain ⟨callable, mem, entry, named, only⟩ := tidy.routines x n ((old x).mp found)
    exact ⟨callable, mem, entry, named, fun y found' => only y ((old y).mp found')⟩
  · intro x f found
    simp only [Assembly.withField, Places.getElem?_insert] at found ⊢
    split at found
    · rename_i same
      subst same
      obtain rfl : numbered name s.counter = f := by simpa using found
      refine ⟨storable, isGlobal, ⟨slot, ok, by simp⟩, fun y found' => ?_⟩
      split at found'
      · rename_i same
        exact same.symm
      · exact absurd found' (unused y)
    · obtain ⟨storable', owner, ⟨slot', ok', mem⟩, only⟩ := tidy.fields x f found
      refine ⟨storable', owner, ⟨slot', ok', by simp [mem]⟩, fun y found' => ?_⟩
      split at found'
      · obtain rfl : numbered name s.counter = f := by simpa using found'
        exact absurd found (unused x)
      · exact only y found'
  · intro f mem
    simp only [Assembly.withField, Array.toList_push, List.mem_append, List.mem_singleton] at mem
    rcases mem with mem | rfl
    · obtain ⟨⟨base, k, form, low⟩, x, found⟩ := tidy.listed f mem
      exact ⟨⟨base, k, form, Nat.lt_succ_of_lt low⟩, x, Places.below_insert free _ x _ found⟩
    · exact ⟨⟨name, s.counter, rfl, Nat.lt_succ_self _⟩, id, by simp [Assembly.withField]⟩
  · simp only [Assembly.withField, Array.toList_push, List.map_append, List.map_singleton]
    refine List.nodup_append.mpr ⟨tidy.distinct, by simp, ?_⟩
    intro n mem n' mem'
    obtain ⟨f, inside, rfl⟩ := List.mem_map.mp mem
    obtain rfl := List.mem_singleton.mp mem'
    exact fresh f inside
  · intro x n found
    have apart : Place.field (numbered name s.counter) ≠ .slot n := by simp
    exact tidy.slots x n ((Places.getElem?_insert_of_ne free apart x).mp found)

/-- The name a routine gets is not in use. -/
theorem routineName_fresh (tidy : s.Tidy a) (plain : String) : s.routineName plain ∉ s.taken := by
  unfold routineName
  split
  · intro mem
    rcases tidy.taken _ mem with noDollar | ⟨base, k, form, low⟩
    · exact noDollar (dollar_mem_numbered _ _)
    · have := numbered_inj form
      omega
  · rename_i free
    simpa using free

/-- The names in use are still those the source can spell and those with a number given out. -/
theorem withRoutine_taken (tidy : s.Tidy a) (id : SymbolId) {plain : String}
    (spelled : '$' ∉ plain.toList) {n : String} (mem : n ∈ (s.withRoutine id plain).taken) :
    '$' ∉ n.toList ∨ ∃ base k, n = numbered base k ∧ k < (s.withRoutine id plain).counter := by
  rcases List.mem_cons.mp mem with rfl | mem
  · by_cases clash : s.taken.contains plain = true
    · refine Or.inr ⟨plain, s.counter, by rw [if_pos clash], ?_⟩
      simp only [Assembly.withRoutine, if_pos clash]
      omega
    · rw [if_neg clash]
      exact Or.inl spelled
  · refine (tidy.taken n mem).imp_right ?_
    rintro ⟨base, k, form, low⟩
    exact ⟨base, k, form, low.trans_le (s.counter_le_withRoutine id plain)⟩

theorem withRoutine (tidy : s.Tidy a) {id : SymbolId} (free : s.places[id]? = none)
    (callable : a.Callable id) : (s.withRoutine id (Assemble.nameOf a id)).Tidy a := by
  have spelled : '$' ∉ (Assemble.nameOf a id).toList := by
    obtain ⟨t, found, -, spelled⟩ := callable
    simpa [Assemble.nameOf, found] using spelled
  have fresh := tidy.routineName_fresh (Assemble.nameOf a id)
  have places : ∀ (x : SymbolId), (s.withRoutine id (Assemble.nameOf a id)).places[x]? =
      if id = x then some (.routine (s.routineName (Assemble.nameOf a id))) else s.places[x]? :=
    fun x => Places.getElem?_insert _ _ _ _
  have old {other : Place} (apart : .routine (s.routineName (Assemble.nameOf a id)) ≠ other)
      (x : SymbolId) : (s.withRoutine id (Assemble.nameOf a id)).places[x]? = some other ↔
        s.places[x]? = some other :=
    Places.getElem?_insert_of_ne free apart x
  refine ⟨?_, ?_, ?_, ?_, ?_, tidy.distinct, ?_⟩
  · exact List.mem_cons_of_mem _ tidy.main
  · exact fun n mem => tidy.withRoutine_taken id spelled mem
  · intro x n found
    by_cases new : s.routineName (Assemble.nameOf a id) = n
    · -- The new routine has its name to itself, since the name was free.
      have only : ∀ (y : SymbolId),
          (s.withRoutine id (Assemble.nameOf a id)).places[y]? = some (.routine n) → y = id := by
        intro y found'
        rw [places] at found'
        split at found'
        · rename_i same
          exact same.symm
        · exact absurd (new ▸ (tidy.routines y n found').2.1) fresh
      obtain rfl := only x found
      subst new
      refine ⟨callable, List.mem_cons_self, ?_, s.routineName_form _, only⟩
      intro entry
      exact fresh (entry ▸ tidy.main)
    · have apart : Place.routine (s.routineName (Assemble.nameOf a id)) ≠ .routine n := by
        simpa using new
      have before := old apart
      obtain ⟨callable', mem, entry, named, only⟩ := tidy.routines x n ((before x).mp found)
      exact ⟨callable', List.mem_cons_of_mem _ mem, entry, named,
        fun y found' => only y ((before y).mp found')⟩
  · intro x f found
    obtain ⟨storable, owner, field, only⟩ := tidy.fields x f ((old (by simp) x).mp found)
    exact ⟨storable, owner, field, fun y found' => only y ((old (by simp) y).mp found')⟩
  · intro f mem
    obtain ⟨⟨base, k, form, low⟩, x, found⟩ := tidy.listed f mem
    exact ⟨⟨base, k, form, low.trans_le (s.counter_le_withRoutine id _)⟩, x,
      Places.below_insert free _ x _ found⟩
  · intro x n found
    exact tidy.slots x n ((old (by simp) x).mp found)

end Tidy

end Assembly

/-- The error for a routine with too many locals. -/
def tooManyLocals (name : String) : Error :=
  .codeGen s!"too many locals in {name}"

/-- There are more different locals than slots: those already placed, and those
asked for. -/
def Overflows (a : Analysis) (method : SymbolId) (syms asked : List SymbolId) : Prop :=
  ∃ xs : List SymbolId, xs.Nodup ∧ Draft.slotLimit < xs.length ∧
    ∀ x ∈ xs, x ∈ syms ∨ x ∈ asked ∧ a.ownerOf x = some method

/-- A routine is named after its method, with a number if the name was taken. -/
def NamedAfter (a : Analysis) (method : SymbolId) (name : String) : Prop :=
  name = Assemble.nameOf a method ∨ ∃ k, name = numbered (Assemble.nameOf a method) k

/-- Why code cannot be laid out: the routine under construction overflows, or one in it does. -/
def Fails (a : Analysis) (here : Option SymbolId) (syms : List SymbolId) (name : String)
    (ops : List Op) (e : Error) : Prop :=
  (∃ method, here = some method ∧ Overflows a method syms (Op.touched ops) ∧
      e = tooManyLocals name) ∨
    ∃ b ∈ Op.bodiesAll ops, Overflows a b.1 (a.params b.1) (Op.touched b.2) ∧
      ∃ n, NamedAfter a b.1 n ∧ e = tooManyLocals n

/-- The slots that the values of some symbols need. -/
def SlotsOf (a : Analysis) (syms : List SymbolId) (slots : List Slot) : Prop :=
  List.Forall₂ (fun x slot => Assemble.slotOf a x = .ok slot) syms slots

/-- The finished routine of a method. -/
structure Laid (a : Analysis) (places : Places) (b : SymbolId × List Op) (r : Routine) : Prop where
  name : places[b.1]? = some (.routine r.name)
  params : SlotsOf a (a.params b.1) r.params.toList
  result : Assemble.resultOf a b.1 = .ok r.result
  locals : ∃ syms, places.Slots a (some b.1) syms ∧ SlotsOf a syms r.locals.toList ∧
    a.params b.1 <+: syms ∧ (∀ x ∈ syms, x ∈ a.params b.1 ∨ x ∈ Op.touched b.2) ∧
    r.locals.size ≤ Draft.slotLimit
  placed : ∀ x ∈ Op.touched b.2, places[x]? ≠ none
  code : Op.CodeAt a places r.code 0 b.2
  size : r.code.size = Op.sizeAll b.2

namespace Assembly
variable {a : Analysis} {here : Option SymbolId} {syms : List SymbolId} {s t : Assembly}

/-- The state while a routine of the method `here` is written. -/
structure Writing (a : Analysis) (here : Option SymbolId) (syms : List SymbolId) (s : Assembly) :
    Prop where
  tidy : s.Tidy a
  plain : s.draft.Plain
  slots : Guarded.Places.Slots a s.places here syms
  typed : SlotsOf a syms s.draft.locals.toList
  bounded : s.draft.locals.size ≤ Draft.slotLimit

/-- The symbols that may get a slot while code is laid out: the locals of the method it is in and of
the methods in it. -/
def Reaches (a : Analysis) (here : Option SymbolId) (methods : List SymbolId) (x : SymbolId) :
    Prop :=
  a.ownerOf x = here ∨ ∃ m ∈ methods, a.ownerOf x = some m

/-- Some symbols get their places; no code is written. -/
structure Seats (a : Analysis) (here : Option SymbolId) (syms syms' : List SymbolId)
    (xs : List SymbolId) (s t : Assembly) : Prop where
  below : Guarded.Places.Below s.places t.places
  fresh : ∀ (x : SymbolId) (n : Nat), s.places[x]? = none → t.places[x]? = some (.slot n) →
    Reaches a here [] x
  writing : t.Writing a here syms'
  grows : syms <+: syms'
  only : ∀ x ∈ syms', x ∈ syms ∨ x ∈ xs
  heading : t.draft.name = s.draft.name ∧ t.draft.params = s.draft.params ∧
    t.draft.result = s.draft.result
  instrs : t.draft.instrs = s.draft.instrs
  routines : t.routines = s.routines

end Assembly

/-- What laying out a piece of code does. -/
structure Assembles (a : Analysis) (here : Option SymbolId) (syms syms' : List SymbolId)
    (ops : List Op) (s t : Assembly) : Prop where
  below : Places.Below s.places t.places
  fresh : ∀ (x : SymbolId) (n : Nat), s.places[x]? = none → t.places[x]? = some (.slot n) →
    Assembly.Reaches a here ((Op.bodiesAll ops).map Prod.fst) x
  writing : t.Writing a here syms'
  grows : syms <+: syms'
  only : ∀ x ∈ syms', x ∈ syms ∨ x ∈ Op.touched ops
  heading : t.draft.name = s.draft.name ∧ t.draft.params = s.draft.params ∧
    t.draft.result = s.draft.result
  written : s.draft.instrs <+: t.draft.instrs
  size : t.draft.instrs.length = s.draft.instrs.length + Op.sizeAll ops
  placed : ∀ x ∈ Op.touched ops, t.places[x]? ≠ none
  code : ∀ (places : Places) (code : Array Instr), Places.Below t.places places →
    t.draft.instrs <+: code.toList → Op.CodeAt a places code s.draft.instrs.length ops
  routines : ∃ rs, t.routines.toList = s.routines.toList ++ rs ∧
    List.Forall₂ (Laid a t.places) (Op.bodiesAll ops) rs

theorem Op.Becomes.mono {a : Analysis} {places places' : Places} {pos : Nat} {op : Op} {i : Instr}
    (h : op.Becomes a places pos i) (below : places.Below places') :
    op.Becomes a places' pos i := by
  cases op with
  | instr | jump | method | fault => exact h
  | load | store =>
    obtain ⟨place, slot, found, rest⟩ := h
    exact ⟨place, slot, below _ _ found, rest⟩
  | invoke =>
    obtain ⟨name, found, rest⟩ := h
    exact ⟨name, below _ _ found, rest⟩

theorem Op.CodeAt.mono {a : Analysis} {places places' : Places} {code : Array Instr}
    (below : places.Below places') : {ops : List Op} → {pos : Nat} →
    Op.CodeAt a places code pos ops → Op.CodeAt a places' code pos ops
  | [], _, _ => trivial
  | _ :: _, _, h => by
    refine ⟨fun one => ?_, Op.CodeAt.mono below h.2⟩
    obtain ⟨i, found, becomes⟩ := h.1 one
    exact ⟨i, found, becomes.mono below⟩

/-- A finished routine stays as it is when other symbols get places. -/
theorem Laid.mono {a : Analysis} {places places' : Places} {b : SymbolId × List Op} {r : Routine}
    (h : Laid a places b r) (below : places.Below places')
    (others : ∀ (x : SymbolId) (n : Nat), places[x]? = none → places'[x]? = some (.slot n) →
      a.ownerOf x ≠ some b.1) : Laid a places' b r where
  name := below _ _ h.name
  params := h.params
  result := h.result
  locals := by
    obtain ⟨syms, slots, rest⟩ := h.locals
    refine ⟨syms, slots.mono below ?_, rest⟩
    rintro x m n free found same
    obtain rfl := Option.some.inj same
    exact others x n free found
  placed x mem := by
    obtain ⟨place, found⟩ := Option.ne_none_iff_exists'.mp (h.placed x mem)
    simp [below x place found]
  code := h.code.mono below
  size := h.size

namespace Assembles
variable {a : Analysis} {here : Option SymbolId} {syms syms' syms'' : List SymbolId}
variable {xs ys : List Op} {s t u : Assembly}

theorem nil (writing : s.Writing a here syms) : Assembles a here syms syms [] s s where
  below := .refl _
  fresh x n free found := by simp [free] at found
  writing := writing
  grows := List.prefix_rfl
  only x mem := Or.inl mem
  heading := ⟨rfl, rfl, rfl⟩
  written := List.prefix_rfl
  size := by simp
  placed := by simp [Op.touched]
  code := by simp [Op.CodeAt]
  routines := ⟨[], by simp, .nil⟩

/-- Code that begins a routine is all the code of the routine. -/
theorem code_toRoutine (done : Assembles a here syms syms' xs s t) (start : s.draft.instrs = []) :
    Op.CodeAt a t.places t.draft.toRoutine.code 0 xs ∧
      t.draft.toRoutine.code.size = Op.sizeAll xs := by
  have code := done.code t.places t.draft.toRoutine.code (.refl _) List.prefix_rfl
  have size := done.size
  rw [start, List.length_nil] at code size
  rw [← Draft.size_code, Nat.zero_add] at size
  exact ⟨code, size⟩

/-- Two pieces of code, one after the other. No method is declared twice. -/
theorem append (first : Assembles a here syms syms' xs s t)
    (second : Assembles a here syms' syms'' ys t u)
    (apart : ∀ b ∈ Op.bodiesAll xs, here ≠ some b.1 ∧ ∀ b' ∈ Op.bodiesAll ys, b'.1 ≠ b.1) :
    Assembles a here syms syms'' (xs ++ ys) s u where
  below := first.below.trans second.below
  fresh x n free found := by
    rw [Op.bodiesAll_append, List.map_append]
    cases between : t.places[x]? with
    | none =>
      refine (second.fresh x n between found).imp_right ?_
      rintro ⟨m, mem, own⟩
      exact ⟨m, List.mem_append_right _ mem, own⟩
    | some place =>
      obtain rfl := Option.some.inj ((second.below x place between).symm.trans found)
      refine (first.fresh x n free between).imp_right ?_
      rintro ⟨m, mem, own⟩
      exact ⟨m, List.mem_append_left _ mem, own⟩
  writing := second.writing
  grows := first.grows.trans second.grows
  only x mem := by
    rw [Op.touched_append, List.mem_append]
    rcases second.only x mem with mem | mem
    · exact (first.only x mem).imp_right Or.inl
    · exact Or.inr (Or.inr mem)
  heading := ⟨second.heading.1.trans first.heading.1, second.heading.2.1.trans first.heading.2.1,
    second.heading.2.2.trans first.heading.2.2⟩
  written := first.written.trans second.written
  size := by
    rw [second.size, first.size, Op.sizeAll_append, Nat.add_assoc]
  placed x mem := by
    rw [Op.touched_append, List.mem_append] at mem
    rcases mem with mem | mem
    · obtain ⟨place, found⟩ := Option.ne_none_iff_exists'.mp (first.placed x mem)
      simp [second.below x place found]
    · exact second.placed x mem
  code places code below written := by
    rw [Op.codeAt_append]
    refine ⟨first.code places code (second.below.trans below) (second.written.trans written), ?_⟩
    rw [← first.size]
    exact second.code places code below written
  routines := by
    obtain ⟨rs, eq, laid⟩ := first.routines
    obtain ⟨rs', eq', laid'⟩ := second.routines
    refine ⟨rs ++ rs', by rw [eq', eq, List.append_assoc], ?_⟩
    rw [Op.bodiesAll_append]
    refine List.rel_append ?_ laid'
    have kept : ∀ b ∈ Op.bodiesAll xs, ∀ r, Laid a t.places b r → Laid a u.places b r := by
      intro b mem r laid
      refine laid.mono second.below fun x n free found own => ?_
      obtain ⟨notHere, notThere⟩ := apart b mem
      rcases second.fresh x n free found with same | ⟨m, mem', same⟩
      · exact notHere (same.symm.trans own)
      · obtain ⟨b', inside, rfl⟩ := List.mem_map.mp mem'
        exact notThere b' inside (Option.some.inj (same.symm.trans own))
    exact List.forall₂_iff_zip.mpr ⟨laid.length_eq, fun mem =>
      kept _ (List.of_mem_zip mem).1 _ (List.forall₂_zip laid mem)⟩

end Assembles

end Guarded
