import Mathlib
import Moire.Proofs.CacheTransparency
import Moire.Proofs.PickleRoundTrip
import Moire.Proofs.WrittenFiles

/-!
# A folder keeps what is saved

A key without a bar is the name of one file in the folder of a store (`pathSteps_joinPath`). If the
path of the folder leads to a folder, `Opens`, what is loaded under a key is decided by the entries
of that folder (`Opens.load_eq`), and what is saved changes one entry (`Opens.save_eq_ok`). So a
folder whose arrays can all be read is a lawful store, but for the files that the system does not
take. A store that was just opened and holds no array is one of these
(`ResultStore.IsBlank.usable`).
-/

namespace Moire

/-! ## Paths of files in a folder -/

/-- A path has at least one part. -/
theorem barParts_ne_nil (text : List Char) : barParts text ≠ [] := by
  cases text with
  | nil => exact List.cons_ne_nil _ _
  | cons c rest =>
      unfold barParts
      split
      · exact List.cons_ne_nil _ _
      · split <;> exact List.cons_ne_nil _ _

/-- A bar ends one part and begins another. -/
theorem barParts_append_cons (before after : List Char) :
    barParts (before ++ '/' :: after) = barParts before ++ barParts after := by
  induction before with
  | nil => rfl
  | cons c before ih =>
      rw [List.cons_append, barParts, barParts, ih]
      split
      · rfl
      · obtain ⟨part, parts, hparts⟩ := List.exists_cons_of_ne_nil (barParts_ne_nil before)
        rw [hparts]
        rfl

/-- A text without bars is its own only part. -/
theorem barParts_eq_singleton {part : List Char} (h : '/' ∉ part) : barParts part = [part] := by
  induction part with
  | nil => rfl
  | cons c rest ih =>
      rw [List.mem_cons, not_or] at h
      rw [barParts, if_neg (Ne.symm h.1), ih h.2]

/-- A text ends with another just if its characters do. -/
theorem endsWith_iff {text last : String} :
    text.endsWith last = true ↔ last.toList <:+ text.toList := by
  simp [← String.endsWith_toSlice]

/-- A name without a bar is one more step. -/
theorem pathSteps_joinPath (root : String) {name : String} (hne : name ≠ "")
    (hbar : '/' ∉ name.toList) : pathSteps (joinPath root name) = pathSteps root ++ [name] := by
  have hname : name.toList ≠ [] := by simpa using hne
  have hparts : barParts name.toList = [name.toList] := barParts_eq_singleton hbar
  have hstart : ¬ name.startsWith "/" = true := by
    rw [String.startsWith_string_iff]
    exact fun hstarts ↦ hbar (hstarts.subset (by decide))
  rw [joinPath, if_neg hstart]
  unfold pathSteps
  split
  next hroot =>
    rcases hroot with rfl | hend
    · simp [hparts, hname, barParts]
    · obtain ⟨before, hbefore⟩ := endsWith_iff.mp hend
      have hroot : root.toList = before ++ '/' :: [] := hbefore.symm
      rw [String.toList_append, hroot, List.append_assoc, List.cons_append, List.nil_append,
        barParts_append_cons, barParts_append_cons, hparts]
      simp [barParts, hname]
  next =>
    have hpath : (root ++ "/" ++ name).toList = root.toList ++ '/' :: name.toList := by simp
    rw [hpath, barParts_append_cons, hparts]
    simp [hname]

/-- The path ends with the name. -/
theorem exists_joinPath_eq (root : String) {name : String} (hbar : '/' ∉ name.toList) :
    ∃ before, joinPath root name = before ++ name := by
  unfold joinPath
  split
  next hstart =>
    exact absurd ((String.startsWith_string_iff.mp hstart).subset (by decide)) hbar
  · split
    · exact ⟨root, rfl⟩
    · exact ⟨root ++ "/", rfl⟩

namespace FileTree

/-! ## Steps and places, one after the other -/

variable {tree other sub : FileTree} {names target : List String}

/-- Steps are followed one after the other. -/
theorem follow_append {steps : List String} (rest : List String)
    (h : tree.follow names steps = .ok target) :
    tree.follow names (steps ++ rest) = tree.follow target rest := by
  induction steps generalizing names with
  | nil =>
      cases h
      rfl
  | cons step steps ih =>
      have hbind {names' : List String}
          (h : (do let _ ← tree.findFolder names; tree.follow names' steps) = .ok target) :
          (do let _ ← tree.findFolder names; tree.follow names' (steps ++ rest)) =
            tree.follow target rest := by
        rcases hfolder : tree.findFolder names with cause | entries
        · rw [hfolder] at h
          cases h
        · rw [hfolder] at h
          exact ih h
      rw [follow] at h
      rw [List.cons_append, follow]
      split at h
      next hdot => rw [if_pos hdot]; exact hbind h
      next hdot =>
        rw [if_neg hdot]
        split at h
        next hdots => rw [if_pos hdots]; exact hbind h
        next hdots => rw [if_neg hdots]; exact ih h

/-- What is below a folder is found from the folder. -/
theorem find_append (rest : List String) (h : tree.find names = .ok sub) :
    tree.find (names ++ rest) = sub.find rest := by
  induction names generalizing tree with
  | nil =>
      cases h
      rfl
  | cons name names ih =>
      cases tree with
      | file content => cases h
      | folder entries =>
          rcases hchild : child entries name with cause | below
          · rw [find_cons_error hchild] at h
            cases h
          · rw [find_cons hchild] at h
            rw [List.cons_append, find_cons hchild, ih h]

/-- What is put below a place changes what stands at the place. -/
theorem find_graft_append (rest : List String) (h : tree.find names = .ok sub) :
    (graft other tree (names ++ rest)).find names = .ok (graft other sub rest) := by
  induction names generalizing tree with
  | nil =>
      cases h
      rfl
  | cons name names ih =>
      cases tree with
      | file content => cases h
      | folder entries =>
          rcases hchild : child entries name with cause | below
          · rw [find_cons_error hchild] at h
            cases h
          · rw [find_cons hchild] at h
            obtain ⟨hname, hlookup⟩ := child_eq_ok hchild
            rw [List.cons_append, graft, find_cons (child_setEntry hname _ _), hlookup]
            exact ih h

end FileTree

namespace PickleFolder

/-! ## The files of a folder -/

variable {folder : PickleFolder} {names : List String} {entries : List (String × FileTree)}
  {key : String}

/-- The name of the file for a key. -/
def fileName (key : String) : String := key ++ ".pkl"

/-- No short text is the name of a file of the store. -/
theorem fileName_ne (key text : String) (h : text.length < 4) : fileName key ≠ text := by
  rintro rfl
  rw [fileName, String.length_append, show ".pkl".length = 4 from rfl] at h
  omega

/-- The name of the file tells the key. -/
theorem fileName_injective : Function.Injective fileName := by
  intro key other h
  simpa [fileName] using h

/-- The name of the file of a plain key has no bar. -/
theorem slash_notMem_fileName (h : '/' ∉ key.toList) : '/' ∉ (fileName key).toList := by
  simpa [fileName] using h

/-- The path of the store leads to a folder with the given entries. -/
structure Opens (folder : PickleFolder) (names : List String)
    (entries : List (String × FileTree)) : Prop where
  follow : folder.files.follow [] (pathSteps folder.root) = .ok names
  find : folder.files.find names = .ok (.folder entries)

/-- Why the system takes no file for a key: its path or its name is too long, or holds a character
that no path may hold. -/
def refusal (root key : String) : Option SystemError :=
  match checkPath (joinPath root (fileName key)) with
  | .error cause => some cause
  | .ok () => if longestName < (fileName key).utf8ByteSize then some .nameTooLong else none

/-- What is loaded for a key from the entry of its file. -/
def loadEntry (key : String) : Option FileTree → Outcome (Option (StoredArray Float))
  | none => .ok none
  | some (.folder _) => fail (.store key SystemError.isFolder.message)
  | some (.file content) =>
      match Pickle.decode? content.toList with
      | some array => .ok (some array)
      | none => fail (.store key Error.undecodable)

/-- The path of a key leads to one name below the folder. -/
theorem Opens.locate (h : Opens folder names entries) (hkey : '/' ∉ key.toList)
    (hpath : checkPath (folder.pathFor key) = .ok ()) :
    folder.files.locate (folder.pathFor key) = .ok (names ++ [fileName key]) := by
  have hbar := slash_notMem_fileName hkey
  have hne : folder.pathFor key ≠ "" := by
    obtain ⟨before, hbefore⟩ := exists_joinPath_eq folder.root hbar
    rw [pathFor, show key ++ ".pkl" = fileName key from rfl, hbefore]
    simp [fileName]
  have hsteps : pathSteps (folder.pathFor key) = pathSteps folder.root ++ [fileName key] :=
    pathSteps_joinPath folder.root (fileName_ne key "" (by decide)) hbar
  unfold FileTree.locate
  rw [hpath, if_neg hne, hsteps]
  show folder.files.follow [] (pathSteps folder.root ++ [fileName key]) = _
  rw [FileTree.follow_append _ h.follow, FileTree.follow, if_neg (fileName_ne key "." (by decide)),
    if_neg (fileName_ne key ".." (by decide)), FileTree.follow]

/-- The path of a plain key names a file, not a folder. -/
theorem endsWith_pathFor (folder : PickleFolder) (hkey : '/' ∉ key.toList) :
    (folder.pathFor key).endsWith "/" = false := by
  obtain ⟨before, hbefore⟩ := exists_joinPath_eq folder.root (slash_notMem_fileName hkey)
  rw [pathFor, show key ++ ".pkl" = fileName key from rfl, hbefore]
  rw [Bool.eq_false_iff, ne_eq, endsWith_iff]
  rintro ⟨text, htext⟩
  have hlast := congrArg List.getLast? htext
  simp [fileName] at hlast

/-- What stands there is an entry of the folder. -/
theorem Opens.find_file (h : Opens folder names entries) (key : String) :
    folder.files.find (names ++ [fileName key]) = FileTree.child entries (fileName key) := by
  rw [FileTree.find_append _ h.find, FileTree.find]
  cases FileTree.child entries (fileName key) <;> rfl

/-- A key is not refused just if its path is allowed and its name is short enough. -/
theorem refusal_eq_none : refusal folder.root key = none ↔
    checkPath (folder.pathFor key) = .ok () ∧ (fileName key).utf8ByteSize ≤ longestName := by
  rw [refusal, pathFor, ← fileName]
  rcases checkPath (joinPath folder.root (fileName key)) with cause | _
  · simp
  · simp

/-- Nothing is found under a key that is refused. -/
theorem Opens.load_of_refusal (h : Opens folder names entries) (hkey : '/' ∉ key.toList)
    {cause : SystemError} (hrefusal : refusal folder.root key = some cause) :
    folder.load key = .ok none := by
  have hholds : folder.files.holds (folder.pathFor key) = false := by
    rcases hpath : checkPath (folder.pathFor key) with failure | _
    · simp [FileTree.holds, FileTree.locate, hpath, bind, Except.bind]
    · have hlong : longestName < (fileName key).utf8ByteSize := by
        by_contra hshort
        rw [refusal_eq_none.mpr ⟨hpath, not_lt.mp hshort⟩] at hrefusal
        cases hrefusal
      have hchild : FileTree.child entries (fileName key) = .error .nameTooLong := if_pos hlong
      rw [FileTree.holds, h.locate hkey hpath]
      simp only [h.find_file, hchild]
      rfl
  rw [load, hholds]
  rfl

/-- What is loaded is decided by the entry of the file. -/
theorem Opens.load_eq (h : Opens folder names entries) (hkey : '/' ∉ key.toList)
    (hrefusal : refusal folder.root key = none) :
    folder.load key = loadEntry key (entries.lookup (fileName key)) := by
  obtain ⟨hpath, hshort⟩ := refusal_eq_none.mp hrefusal
  have hlocate := h.locate hkey hpath
  have hfind := h.find_file key
  rw [FileTree.child, if_neg (not_lt.mpr hshort)] at hfind
  rcases hlookup : entries.lookup (fileName key) with _ | content | inner
  all_goals
    rw [hlookup] at hfind
    unfold load FileTree.holds FileTree.read
    simp only [hlocate, hfind, bind, Except.bind, endsWith_pathFor folder hkey]
    rfl

/-- Nothing is found in a folder without entries. -/
theorem Opens.load_of_empty (h : Opens folder names []) (hkey : '/' ∉ key.toList) :
    folder.load key = .ok none := by
  rcases hrefusal : refusal folder.root key with _ | cause
  · exact h.load_eq hkey hrefusal
  · exact h.load_of_refusal hkey hrefusal

/-- Nothing is saved under a key that is refused. -/
theorem Opens.save_of_refusal (h : Opens folder names entries) (hkey : '/' ∉ key.toList)
    {cause : SystemError} (hrefusal : refusal folder.root key = some cause)
    (array : StoredArray Float) : folder.save key array = fail (.store key cause.message) := by
  have hwrite : folder.files.write (folder.pathFor key) (Pickle.encode array).toByteArray =
      .error cause := by
    rcases hpath : checkPath (folder.pathFor key) with failure | _
    · rw [refusal, show checkPath (joinPath folder.root (fileName key)) = _ from hpath] at hrefusal
      cases hrefusal
      simp [FileTree.write, FileTree.locate, hpath, bind, Except.bind]
    · rw [refusal, show checkPath (joinPath folder.root (fileName key)) = _ from hpath] at hrefusal
      obtain ⟨hlong, rfl⟩ : longestName < (fileName key).utf8ByteSize ∧ .nameTooLong = cause := by
        simpa using hrefusal
      have hchild : FileTree.child entries (fileName key) = .error .nameTooLong := if_pos hlong
      unfold FileTree.write
      simp only [h.locate hkey hpath, h.find_file, hchild, endsWith_pathFor folder hkey, bind,
        Except.bind]
      rfl
  rw [save, hwrite]

/-- What is saved is one entry of the folder. -/
theorem Opens.save_eq_ok (h : Opens folder names entries) (hkey : '/' ∉ key.toList)
    (hrefusal : refusal folder.root key = none)
    (hfile : ∀ inner, entries.lookup (fileName key) ≠ some (.folder inner))
    (array : StoredArray Float) : ∃ after, folder.save key array = .ok after ∧
      after.root = folder.root ∧ Opens after names
        (FileTree.setEntry (fileName key) (.file (Pickle.encode array).toByteArray) entries) := by
  obtain ⟨hpath, hshort⟩ := refusal_eq_none.mp hrefusal
  have hlocate := h.locate hkey hpath
  have hfind := h.find_file key
  rw [FileTree.child, if_neg (not_lt.mpr hshort)] at hfind
  have hwrite : folder.files.write (folder.pathFor key) (Pickle.encode array).toByteArray =
      .ok (FileTree.graft (.file (Pickle.encode array).toByteArray) folder.files
        (names ++ [fileName key])) := by
    have hfolder : folder.files.findFolder (names ++ [fileName key]).dropLast = .ok entries := by
      rw [List.dropLast_concat]
      exact FileTree.findFolder_of_find h.find
    rcases hlookup : entries.lookup (fileName key) with _ | content | inner
    rotate_right
    · exact absurd hlookup (hfile inner)
    all_goals
      rw [hlookup] at hfind
      unfold FileTree.write
      simp only [hlocate, hfind, hfolder, bind, Except.bind, endsWith_pathFor folder hkey]
      rfl
  have hkeeps : FileTree.KeepsFolders folder.files (FileTree.graft
      (.file (Pickle.encode array).toByteArray) folder.files (names ++ [fileName key])) := by
    refine FileTree.keepsFolders_graft fun inner hinner ↦ ?_
    rw [hinner] at hfind
    rcases hlookup : entries.lookup (fileName key) with _ | found
    · rw [hlookup] at hfind
      cases hfind
    · rw [hlookup] at hfind
      cases hfind
      exact hfile inner hlookup
  refine ⟨⟨folder.root, FileTree.graft (.file (Pickle.encode array).toByteArray) folder.files
    (names ++ [fileName key])⟩, by rw [save, hwrite], rfl, hkeeps.follow h.follow, ?_⟩
  exact FileTree.find_graft_append _ h.find

end PickleFolder

/-! ## Laws -/

/-- Why nothing is saved under a key in memory, or in a folder. -/
def ResultStore.refusedAt (place : Option String) (key : String) : Option Failure :=
  place.bind fun root ↦
    (PickleFolder.refusal root key).map fun cause ↦ .error (.store key cause.message)

/-- A folder that is there and whose arrays can be read is lawful. -/
instance : LawfulCache PickleFolder (fun key ↦ '/' ∉ key.toList) StoredArray.SmallShape where
  Sound folder := ∃ names entries, folder.Opens names entries ∧ ∀ key, '/' ∉ key.toList →
    PickleFolder.refusal folder.root key = none →
      ∃ found, PickleFolder.loadEntry key (entries.lookup (PickleFolder.fileName key)) = .ok found
  refusal folder key := ResultStore.refusedAt (some folder.root) key
  load_cases {folder key} h hkey := by
    obtain ⟨names, entries, hopens, hentries⟩ := h
    rcases hrefusal : PickleFolder.refusal folder.root key with _ | cause
    · obtain ⟨found, hfound⟩ := hentries key hkey hrefusal
      have hload : ResultCache.load folder key = .ok found :=
        (hopens.load_eq hkey hrefusal).trans hfound
      cases found with
      | none => exact Or.inl hload
      | some array => exact Or.inr ⟨Option.map_eq_none_iff.mpr hrefusal, array, hload⟩
    · exact Or.inl (hopens.load_of_refusal hkey hrefusal)
  save_of_refusal {folder key cause} array h hkey hrefusal := by
    obtain ⟨names, entries, hopens, -⟩ := h
    obtain ⟨reason, hreason, rfl⟩ := Option.map_eq_some_iff.mp hrefusal
    exact hopens.save_of_refusal hkey hreason array
  save_eq_ok {folder key array} h hkey harray hrefusal := by
    obtain ⟨names, entries, hopens, hentries⟩ := h
    have hnone : PickleFolder.refusal folder.root key = none := Option.map_eq_none_iff.mp hrefusal
    have hfile (inner : List (String × FileTree)) :
        entries.lookup (PickleFolder.fileName key) ≠ some (.folder inner) := by
      intro hinner
      obtain ⟨found, hfound⟩ := hentries key hkey hnone
      rw [hinner] at hfound
      cases hfound
    obtain ⟨after, hsave, hroot, hafter⟩ := hopens.save_eq_ok hkey hnone hfile array
    have hentry (other : String) : PickleFolder.loadEntry other ((FileTree.setEntry
        (PickleFolder.fileName key) (.file (Pickle.encode array).toByteArray) entries).lookup
          (PickleFolder.fileName other)) = if key = other then .ok (some array)
        else PickleFolder.loadEntry other (entries.lookup (PickleFolder.fileName other)) := by
      split
      next hother =>
        subst hother
        rw [FileTree.lookup_setEntry]
        simp only [PickleFolder.loadEntry, Pickle.toList_toByteArray, Pickle.decode?_encode harray]
      next hother =>
        rw [FileTree.lookup_setEntry_of_ne]
        exact fun hname ↦ hother (PickleFolder.fileName_injective hname).symm
    refine ⟨after, hsave, ⟨names, _, hafter, fun other hother htaken ↦ ?_⟩, fun other _ ↦ ?_,
      fun other hother ↦ ?_⟩
    · rw [hentry]
      split
      · exact ⟨_, rfl⟩
      · exact hentries other hother (hroot ▸ htaken)
    · rw [hroot]
    · show after.load other = if key = other then _ else folder.load other
      rcases hother' : PickleFolder.refusal folder.root other with _ | cause
      · rw [hafter.load_eq hother (hroot ▸ hother'), hentry, hopens.load_eq hother hother']
      · have hne : key ≠ other := by
          rintro rfl
          cases hnone.symm.trans hother'
        rw [hafter.load_of_refusal hother (hroot ▸ hother'), if_neg hne,
          hopens.load_of_refusal hother hother']

/-- A store of the program is lawful, wherever it is. -/
instance : LawfulCache ResultStore (fun key ↦ '/' ∉ key.toList) StoredArray.SmallShape where
  Sound
    | .memory store => LawfulCache.Sound Float store
    | .folder store => LawfulCache.Sound Float store
  refusal
    | .memory store, key => LawfulCache.refusal Float store key
    | .folder store, key => LawfulCache.refusal Float store key
  load_cases {store key} h hkey := by
    cases store with
    | memory store => exact LawfulCache.load_cases (σ := MemoryStore Float) h trivial
    | folder store => exact LawfulCache.load_cases (σ := PickleFolder) h hkey
  save_of_refusal {store key cause} array h hkey hrefusal := by
    cases store with
    | memory store => cases hrefusal
    | folder store =>
        have hsave : ResultCache.save store key array = .error cause :=
          LawfulCache.save_of_refusal (σ := PickleFolder) array h hkey hrefusal
        show ResultStore.folder <$> ResultCache.save store key array = _
        rw [hsave]
        rfl
  save_eq_ok {store key array} h hkey harray hrefusal := by
    cases store with
    | memory store =>
        obtain ⟨after, hsave, hsound, hsame, hload⟩ : ∃ after,
            ResultCache.save store key array = .ok after ∧ _ :=
          LawfulCache.save_eq_ok (σ := MemoryStore Float) h trivial trivial hrefusal
        refine ⟨.memory after, ?_, hsound, fun other _ ↦ hsame other trivial,
          fun other _ ↦ hload other trivial⟩
        show ResultStore.memory <$> ResultCache.save store key array = _
        rw [hsave]
        rfl
    | folder store =>
        obtain ⟨after, hsave, hsound, hsame, hload⟩ :=
          LawfulCache.save_eq_ok (σ := PickleFolder) h hkey harray hrefusal
        refine ⟨.folder after, ?_, hsound, hsame, hload⟩
        show ResultStore.folder <$> ResultCache.save store key array = _
        rw [hsave]
        rfl

/-! ## A folder that was just made -/

namespace FileTree

variable {tree made : FileTree} {path : String}

/-- A path is located by following its steps from the top. -/
theorem locate_eq_ok {names : List String} (h : tree.locate path = .ok names) :
    tree.follow [] (pathSteps path) = .ok names := by
  unfold locate at h
  rcases hpath : checkPath path with cause | _
  · rw [hpath] at h
    cases h
  · rw [hpath] at h
    by_cases hempty : path = ""
    · rw [if_pos hempty] at h
      cases h
    · rw [if_neg hempty] at h
      exact h

/-- The path of a folder that was made leads to it. -/
theorem makeFolder_eq_ok (h : tree.makeFolder path = .ok made) : ∃ names entries,
    made.follow [] (pathSteps path) = .ok names ∧ made.find names = .ok (.folder entries) := by
  unfold makeFolder at h
  rcases hpath : checkPath path with cause | _
  · rw [hpath] at h
    cases h
  rcases hparent : tree.follow [] (pathSteps path).dropLast with cause | parent
  · simp only [hpath, hparent, bind, Except.bind] at h
    cases h
  rcases hfolder : tree.findFolder parent with cause | entries
  · simp only [hpath, hparent, hfolder, bind, Except.bind] at h
    cases h
  rcases hlast : (pathSteps path).getLast? with _ | last
  · simp only [hpath, hparent, hfolder, hlast, bind, Except.bind] at h
    cases h
  simp only [hpath, hparent, hfolder, hlast, bind, Except.bind] at h
  split at h
  · cases h
  next hdots =>
    rw [not_or] at hdots
    rcases hfind : tree.find (parent ++ [last]) with cause | node
    rotate_left
    · simp only [hfind] at h
      cases h
    have hsteps : pathSteps path = (pathSteps path).dropLast ++ [last] :=
      (List.dropLast_append_getLast? last hlast).symm
    cases cause <;> simp only [hfind] at h <;> cases h
    have hkeeps : KeepsFolders tree (graft empty tree (parent ++ [last])) :=
      keepsFolders_graft fun entries hentries ↦ by rw [hfind] at hentries; cases hentries
    have hfree : Free tree (parent ++ [last]) :=
      .missing hfind (by rw [List.dropLast_concat]; exact find_of_findFolder hfolder)
    refine ⟨parent ++ [last], [], ?_, find_graft hfree⟩
    rw [hsteps, follow_append _ (hkeeps.follow hparent), follow, if_neg hdots.1, if_neg hdots.2,
      follow]

/-- The path of a folder that is there afterwards leads to it. -/
theorem ensureFolder_eq_ok (h : tree.ensureFolder path = .ok made) : ∃ names entries,
    made.follow [] (pathSteps path) = .ok names ∧ made.find names = .ok (.folder entries) := by
  unfold ensureFolder at h
  split at h
  next cause hmake =>
    split at h
    next hholds =>
      cases h
      unfold holdsFolder at hholds
      rcases hlocate : tree.locate path with cause | names
      · rw [hlocate] at hholds
        cases hholds
      · rw [hlocate] at hholds
        rcases hfolder : tree.findFolder names with cause | entries
        · simp only [hfolder] at hholds
          cases hholds
        · exact ⟨names, entries, locate_eq_ok hlocate, find_of_findFolder hfolder⟩
    next => cases h
  next hmake => exact makeFolder_eq_ok h

/-- After the folders above and the path itself were made there is a folder at the path. -/
theorem ensureFolders_eq_ok {above : List String}
    (h : tree.ensureFolders (path :: above) = .ok made) : ∃ names entries,
    made.follow [] (pathSteps path) = .ok names ∧ made.find names = .ok (.folder entries) := by
  rw [ensureFolders] at h
  split at h
  next hmissing =>
    rcases hgrown : tree.ensureFolders above with cause | grown
    · rw [hgrown] at h
      cases h
    · rw [hgrown] at h
      exact ensureFolder_eq_ok h
  next => exact ensureFolder_eq_ok h

end FileTree

/-- A folder that was just made is there. -/
theorem PickleFolder.opens_create {top : List (String × FileTree)} {root : String}
    {folder : PickleFolder} (h : create (.folder top) root = .ok folder) :
    folder.root = root ∧ ∃ names entries, folder.Opens names entries := by
  unfold create at h
  split at h
  next files hfiles =>
    cases h
    refine ⟨rfl, ?_⟩
    unfold FileTree.createFolder at hfiles
    split at hfiles
    next hempty =>
      cases hfiles
      subst hempty
      exact ⟨[], top, rfl, rfl⟩
    next =>
      obtain ⟨names, entries, hfollow, hfind⟩ := FileTree.ensureFolders_eq_ok hfiles
      exact ⟨names, entries, hfollow, hfind⟩
  next => cases h

/-! ## Stores without arrays -/

/-- The store was just opened and no array is found in it. It is in memory, or in a folder that was
made unless it was there. -/
inductive ResultStore.IsBlank : Option String → ResultStore → Prop
  | memory {store : MemoryStore Float} (h : ∀ key, store.get? key = none) :
      IsBlank none (.memory store)
  | folder {top : List (String × FileTree)} {root : String} {store : PickleFolder}
      (hcreate : PickleFolder.create (.folder top) root = .ok store)
      (h : ∀ key, '/' ∉ key.toList → store.load key = .ok none) :
      IsBlank (some root) (.folder store)

namespace ResultStore.IsBlank

variable {place : Option String} {store : ResultStore}

/-- A blank store has nothing under any plain key. -/
theorem load_eq (h : IsBlank place store) {key : String} (hkey : '/' ∉ key.toList) :
    ResultCache.load store key = .ok none := by
  cases h with
  | memory h => exact congrArg Except.ok (h key)
  | folder _ h => exact h key hkey

/-- A blank store can be used, but for the files that the system does not take. -/
theorem usable (h : IsBlank place store) : Usable (ResultStore.refusedAt place) store := by
  cases h with
  | memory => exact ⟨trivial, fun _ ↦ rfl⟩
  | folder hcreate h =>
      obtain ⟨hroot, names, entries, hopens⟩ := PickleFolder.opens_create hcreate
      subst hroot
      refine ⟨⟨names, entries, hopens, fun key hkey hrefusal ↦ ⟨none, ?_⟩⟩, fun _ ↦ rfl⟩
      rw [← hopens.load_eq hkey hrefusal]
      exact h key hkey

/-- No array in a blank store is wrong. -/
theorem trusted (h : IsBlank place store) (V : Quantity → TaskContext Float → Prop) :
    Trusted V (ResultStore.refusedAt place) store := by
  refine ⟨h.usable, fun key array hkey hload ↦ ?_⟩
  rw [h.load_eq hkey] at hload
  cases hload

end ResultStore.IsBlank

end Moire
