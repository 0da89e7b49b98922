import Guarded.Command.Session
import Guarded.Proofs.Constants
import Guarded.Proofs.Numbering
import Guarded.Proofs.Positions

/-!
The file a unit is kept in. It is named after the program: the name of a program has neither a dot nor
a slash, so the extension is added to the whole of it and tells an object file from a source. A file
that was written holds what was written, and the unit that is loaded from it is the unit that was
saved.
-/

namespace Guarded

namespace Path

/-- The name of a file without dots: it can stand before an extension. -/
structure Stem (name : List Char) : Prop where
  nonempty : name ≠ []
  noSlash : '/' ∉ name
  noDot : '.' ∉ name

/-- The name of a program that was read can be the name of a file. -/
theorem stem_of_parse {source : String} {p : Program} (h : parse source = .ok p) :
    Stem p.name.name.toList := by
  obtain ⟨-, -, ⟨nonempty, parts⟩, -⟩ := parse_reads h
  exact ⟨nonempty, fun mem => absurd (parts _ mem) (by decide),
    fun mem => absurd (parts _ mem) (by decide)⟩

theorem trimBack_of_head {c : Char} {cs : List Char} (noSlash : c ≠ '/') (noDot : c ≠ '.') :
    trimBack (c :: cs) = c :: cs := by
  unfold trimBack
  split
  · next same => exact absurd (List.cons.inj same).1 noSlash
  · next same => exact absurd (List.cons.inj same).1 noDot
  · rfl

/-- A directory as it stands before the name of a file: nothing, or up to a slash. -/
def Folder (dir : List Char) : Prop :=
  dir = [] ∨ ∃ ds, dir = ds ++ ['/']

theorem Folder.whiles {dir : List Char} (folder : Folder dir) :
    dir.reverse.takeWhile (· ≠ '/') = [] ∧ dir.reverse.dropWhile (· ≠ '/') = dir.reverse := by
  rcases folder with rfl | ⟨ds, rfl⟩ <;> simp

/-- A path that ends in a name is divided before the name. -/
theorem split_append {dir name : List Char} {c : Char} (folder : Folder dir)
    (noSlash : '/' ∉ name ++ [c]) (noDot : c ≠ '.') :
    split (String.ofList (dir ++ (name ++ [c]))) = (dir, some (name ++ [c])) := by
  have last : c ≠ '/' := by
    rintro rfl
    simp at noSlash
  have back : trimBack (dir ++ (name ++ [c])).reverse = (name ++ [c]).reverse ++ dir.reverse := by
    rw [List.reverse_append, List.reverse_append, List.reverse_singleton, List.singleton_append,
      List.cons_append, trimBack_of_head last noDot]
  have plain : ∀ d ∈ (name ++ [c]).reverse, decide (d ≠ '/') = true := by
    intro d mem
    rw [decide_eq_true_eq]
    rintro rfl
    exact noSlash (List.mem_reverse.mp mem)
  have isFile : ¬(name ++ [c] = [] ∨ name ++ [c] = ['.'] ∨ name ++ [c] = ['.', '.']) := by
    rintro (none | dot | dots)
    · simp at none
    · have ends := congrArg List.getLast? dot
      simp [noDot] at ends
    · have ends := congrArg List.getLast? dots
      simp [noDot] at ends
  obtain ⟨taken, dropped⟩ := folder.whiles
  rw [split, String.toList_ofList, back, List.takeWhile_append_of_pos plain,
    List.dropWhile_append_of_pos plain, taken, dropped,
    List.append_nil, List.reverse_reverse, List.reverse_reverse, if_neg]
  simpa [or_assoc] using isFile

/-- A name is divided at the dot before an extension. -/
theorem splitName_append {name extension : List Char} (nonempty : name ≠ [])
    (noDot : '.' ∉ extension) :
    splitName (name ++ '.' :: extension) = (name, some extension) := by
  have plain : ∀ d ∈ extension.reverse, decide (d ≠ '.') = true := by
    intro d mem
    rw [decide_eq_true_eq]
    rintro rfl
    exact noDot (List.mem_reverse.mp mem)
  have back : (name ++ '.' :: extension).reverse = extension.reverse ++ '.' :: name.reverse := by
    simp
  obtain ⟨c, cs, reversed⟩ := List.exists_cons_of_ne_nil (List.reverse_ne_nil_iff.mpr nonempty)
  rw [splitName, back, List.takeWhile_append_of_pos plain, List.dropWhile_append_of_pos plain,
    reversed]
  have before : (c :: cs).reverse = name := by rw [← reversed, List.reverse_reverse]
  simp only [List.takeWhile_cons, List.dropWhile_cons]
  simpa using before

theorem splitName_of_noDot {name : List Char} (noDot : '.' ∉ name) :
    splitName name = (name, none) := by
  have none : name.reverse.dropWhile (· ≠ '.') = [] := by
    rw [List.dropWhile_eq_nil_iff]
    intro d mem
    rw [decide_eq_true_eq]
    rintro rfl
    exact noDot (List.mem_reverse.mp mem)
  rw [splitName, none]

/-- A name is put below a directory. -/
theorem join_stem (dir : String) {name : String} (noSlash : '/' ∉ name.toList) :
    ∃ folder, Folder folder ∧ join dir name = String.ofList (folder ++ name.toList) := by
  have below : name.startsWith "/" = false := by
    rw [String.startsWith_string_eq_false_iff]
    exact fun starts => noSlash (starts.subset (by simp))
  rw [join, below, Bool.false_or]
  split
  · exact ⟨[], .inl rfl, by simp⟩
  · split
    · next ends =>
      obtain ⟨ds, eq⟩ : "/".toList <:+ dir.toList := by
        simpa using String.Slice.endsWith_string_iff.mp ends
      exact ⟨dir.toList, .inr ⟨ds, eq.symm⟩, by simp [String.ofList_append]⟩
    · exact ⟨dir.toList ++ ['/'], .inr ⟨_, rfl⟩, by simp [String.ofList_append, String.append_assoc]⟩

/-- The path of a unit is a directory, the name of the unit and the extension. -/
theorem ofUnit_eq (output package : String) {name : String} (stem : Stem name.toList) :
    ∃ folder, Folder folder ∧ ofUnit output package name =
      String.ofList (folder ++ (name ++ "." ++ ObjectUnit.extension).toList) := by
  obtain ⟨folder, isFolder, joined⟩ := join_stem (join output package) stem.noSlash
  obtain ⟨init, c, ends⟩ := (List.eq_nil_or_concat name.toList).resolve_left stem.nonempty
  rw [List.concat_eq_append] at ends
  have noDot : c ≠ '.' := by
    rintro rfl
    exact stem.noDot (by simp [ends])
  have divided : split (join (join output package) name) = (folder, some name.toList) := by
    rw [joined, ends]
    exact split_append isFolder (ends ▸ stem.noSlash) noDot
  refine ⟨folder, isFolder, ?_⟩
  rw [ofUnit, withExtension, divided]
  simp [splitName_of_noDot stem.noDot, String.ofList_append, String.append_assoc]

/-- The last component of the path of a unit is its name with the extension, by which the file is
taken for an object file. -/
theorem ofUnit_split (output package : String) {name : String} (stem : Stem name.toList) :
    (split (ofUnit output package name)).2 = some (name ++ "." ++ ObjectUnit.extension).toList ∧
      extension? (ofUnit output package name) = some ObjectUnit.extension := by
  obtain ⟨folder, isFolder, path⟩ := ofUnit_eq output package stem
  have file : (name ++ "." ++ ObjectUnit.extension).toList =
      name.toList ++ ".dj".toList ++ ['o'] := by
    simp [ObjectUnit.extension]
  have noSlash : '/' ∉ name.toList ++ ".dj".toList ++ ['o'] := by
    simp [stem.noSlash]
  have divided : split (ofUnit output package name) =
      (folder, some (name.toList ++ ".dj".toList ++ ['o'])) := by
    rw [path, file]
    exact split_append isFolder noSlash (by decide)
  have named : splitName (name.toList ++ '.' :: ['d', 'j', 'o']) =
      (name.toList, some ['d', 'j', 'o']) := splitName_append stem.nonempty (by decide)
  rw [extension?, divided, file]
  simp [named, ObjectUnit.extension]

end Path

namespace FileTree
variable {t : FileTree} {names other : List String} {e : Entry}

theorem lookup_filter {entries : List (List String × Entry)} (apart : other ≠ names) :
    (entries.filter fun entry => entry.1 != names).lookup other = entries.lookup other := by
  induction entries with
  | nil => rfl
  | cons entry entries ih =>
    obtain ⟨key, e⟩ := entry
    by_cases removed : key = names
    · have skip : (other == key) = false := by simpa [removed] using apart
      rw [List.filter_cons_of_neg (by simp [removed]), ih, List.lookup_cons, skip]
    · rw [List.filter_cons_of_pos (by simpa using removed), List.lookup_cons, List.lookup_cons, ih]

theorem get?_set_self (nonempty : names ≠ []) : (t.set names e).get? names = some e := by
  simp [get?, set, nonempty]

theorem get?_set_other (apart : other ≠ names) : (t.set names e).get? other = t.get? other := by
  have skip : (other == names) = false := by simpa using apart
  simp only [get?, set, List.lookup_cons, skip, lookup_filter apart]

/-- The names that a way ends at, if a file can be put there: a file stands there or nothing does. -/
def Found.spot? : Found → Option (List String)
  | .entry names (.file _) | .free names => some names
  | .entry _ .directory => none

/-- No directory stands where a file can be put. -/
theorem walk_spot {start parts : List String} {found : Found}
    (walked : t.walk start parts = .ok found) (spot : found.spot? = some names) :
    t.get? names ≠ some .directory := by
  fun_induction t.walk start parts with
  | case1 start e present =>
    obtain rfl := Except.ok.inj walked
    cases e with
    | directory => cases spot
    | file text =>
      obtain rfl := Option.some.inj spot
      simp [present]
  | case2 start absent =>
    obtain rfl := Except.ok.inj walked
    obtain rfl := Option.some.inj spot
    simp [absent]
  | case3 | case4 | case7 => cases walked
  | case5 start part parts isDir stay ih => exact ih walked
  | case6 start parts isDir inner ih => exact ih walked
  | case8 start part parts isDir inner notUp short ih => exact ih walked

/-- A way to where a file can be put leads to the file that is put there. -/
theorem walk_set {start parts : List String} {found : Found}
    (walked : t.walk start parts = .ok found) (spot : found.spot? = some names) :
    (t.set names e).walk start parts = .ok (.entry names e) := by
  have free := walk_spot walked spot
  have nonempty : names ≠ [] := by
    rintro rfl
    exact free rfl
  have apart {start : List String} (isDir : t.get? start = some .directory) : start ≠ names := by
    rintro rfl
    exact free isDir
  fun_induction t.walk start parts with
  | case1 start old present =>
    obtain rfl := Except.ok.inj walked
    cases old with
    | directory => cases spot
    | file text =>
      obtain rfl := Option.some.inj spot
      rw [walk, get?_set_self nonempty]
  | case2 start absent =>
    obtain rfl := Except.ok.inj walked
    obtain rfl := Option.some.inj spot
    rw [walk, get?_set_self nonempty]
  | case3 | case4 | case7 => cases walked
  | case5 start part parts isDir stay ih =>
    rw [walk, get?_set_other (apart isDir), isDir]
    exact (if_pos stay).trans (ih walked)
  | case6 start parts isDir inner ih =>
    rw [walk, get?_set_other (apart isDir), isDir]
    exact ih walked
  | case8 start part parts isDir inner notUp short ih =>
    rw [walk, get?_set_other (apart isDir), isDir]
    dsimp only
    rw [if_neg inner, if_neg notUp, if_neg short]
    exact ih walked

theorem find_set {path : String} {found : Found} (h : t.find path = .ok found)
    (spot : found.spot? = some names) : (t.set names e).find path = .ok (.entry names e) := by
  unfold find at h ⊢
  split at h
  · cases h
  · split at h
    · cases h
    · split at h
      · cases h
      · rw [if_neg ‹_›, if_neg ‹_›, if_neg ‹_›]
        exact walk_set h spot

theorem write_ok {t' : FileTree} {path text : String} (h : t.write path text = .ok t') :
    ∃ found names, t.find path = .ok found ∧ found.spot? = some names ∧
      t' = t.set names (.file text) := by
  unfold write at h
  split at h
  · exact ⟨_, _, ‹_›, rfl, (Except.ok.inj h).symm⟩
  · cases h
  · exact ⟨_, _, ‹_›, rfl, (Except.ok.inj h).symm⟩
  · cases h

/-- A file that was written holds what was written. -/
theorem read_write {t' : FileTree} {path text : String} (h : t.write path text = .ok t') :
    t'.read path = .ok text := by
  obtain ⟨found, names, way, spot, rfl⟩ := write_ok h
  rw [read, find_set way spot]

end FileTree

namespace Session
variable {fuel : Nat} {s s' : Session} {u : ObjectUnit} {output package path : String}

/-- What follows a step starts with what the step gave and left. -/
theorem bind_eq {α β : Type} {x : StateM Session α} {f : α → StateM Session β} {a : α} {t : Session}
    (h : x.run s = (a, t)) : (x >>= f).run s = (f a).run t := by
  rw [StateT.run_bind, h]
  rfl

theorem readText_eq (fuel : Nat) (s : Session) (path : String) :
    ((terminal fuel).readText path).run s = (s.files.read path, s) :=
  rfl

theorem writeText_eq (fuel : Nat) (s : Session) (path text : String) :
    ((terminal fuel).writeText path text).run s =
      match s.files.write path text with
      | .ok files => (.ok (), { s with files })
      | .error e => (.error e, s) :=
  rfl

/-- A unit that was written can be read at its path. -/
theorem writeUnit_ok
    (h : ((terminal fuel).writeUnit u output package).run s = (.ok path, s')) :
    path = Path.ofUnit output package u.name ∧ s'.files.read path = .ok u.save := by
  cases made : ((terminal fuel).makeParents (Path.ofUnit output package u.name)).run s with
  | mk result t =>
    rw [Terminal.writeUnit, bind_eq made] at h
    cases result with
    | error e => cases h
    | ok _ =>
      have wrote := writeText_eq fuel t (Path.ofUnit output package u.name) u.save
      cases written : t.files.write (Path.ofUnit output package u.name) u.save with
      | error e =>
        rw [written] at wrote
        rw [bind_eq wrote] at h
        cases h
      | ok files =>
        rw [written] at wrote
        rw [bind_eq wrote] at h
        cases h
        exact ⟨rfl, FileTree.read_write written⟩

theorem readUnit_eq {text : String} (h : s.files.read path = .ok text) :
    ((terminal fuel).readUnit path).run s = (ObjectUnit.load text, s) := by
  have read := readText_eq fuel s path
  rw [h] at read
  rw [Terminal.readUnit, bind_eq read]
  rfl

end Session

end Guarded
