import Mathlib
import Moire.Proofs.DocumentForms
import Moire.Report.Transfer

/-!
# A file that was written is read back

Writing puts a file at the end of the names that a path leads to, and nothing stands there then but
the file (`find_graft`). The steps of the path lead there as before, because every folder that was
there still is (`KeepsFolders`), so that the path is read as what was written to it, `read_write`.
For a document of any form this gives `readDocument_writeDocument`: the reader is handed the
document with null for the reals that are not finite.
-/

namespace Moire.FileTree

/-! ## Entries of a folder -/

/-- The entry that was set is found under its name. -/
theorem lookup_setEntry (name : String) (tree : FileTree) (entries : List (String × FileTree)) :
    (setEntry name tree entries).lookup name = some tree := by
  induction entries with
  | nil => simp [setEntry]
  | cons entry rest ih =>
      obtain ⟨key, old⟩ := entry
      by_cases h : key = name
      · simp [setEntry, h]
      · simp [setEntry, h, List.lookup_cons, beq_false_of_ne (Ne.symm h), ih]

/-- Setting an entry changes no other one. -/
theorem lookup_setEntry_of_ne {name other : String} (h : other ≠ name) (tree : FileTree)
    (entries : List (String × FileTree)) :
    (setEntry name tree entries).lookup other = entries.lookup other := by
  induction entries with
  | nil => simp [setEntry, List.lookup_cons, beq_false_of_ne h]
  | cons entry rest ih =>
      obtain ⟨key, old⟩ := entry
      by_cases hkey : key = name
      · simp [setEntry, hkey, List.lookup_cons, beq_false_of_ne h]
      · simp [setEntry, hkey, List.lookup_cons, ih]

/-- An entry whose name is not too long is a child. -/
theorem child_of_lookup {entries : List (String × FileTree)} {name : String} {sub : FileTree}
    (hname : name.utf8ByteSize ≤ longestName) (h : entries.lookup name = some sub) :
    child entries name = .ok sub := by
  rw [child, if_neg (not_lt.mpr hname), h]

/-- A child has a name that is not too long. -/
theorem child_eq_ok {entries : List (String × FileTree)} {name : String} {sub : FileTree}
    (h : child entries name = .ok sub) :
    name.utf8ByteSize ≤ longestName ∧ entries.lookup name = some sub := by
  unfold child at h
  split at h
  next => cases h
  next hshort =>
    split at h
    next found hfound =>
      cases h
      exact ⟨not_lt.mp hshort, hfound⟩
    next => cases h

/-- A child is missing only if its name could be the one of a child. -/
theorem child_eq_notFound {entries : List (String × FileTree)} {name : String}
    (h : child entries name = .error .notFound) : name.utf8ByteSize ≤ longestName := by
  unfold child at h
  split at h
  next => cases h
  next hshort => exact not_lt.mp hshort

/-- The entry that was set is a child. -/
theorem child_setEntry {name : String} (hname : name.utf8ByteSize ≤ longestName)
    (tree : FileTree) (entries : List (String × FileTree)) :
    child (setEntry name tree entries) name = .ok tree :=
  child_of_lookup hname (lookup_setEntry name tree entries)

/-! ## Places in a tree -/

variable {tree other : FileTree} {names : List String}

/-- The search goes on from the child. -/
theorem find_cons {entries : List (String × FileTree)} {name : String} {sub : FileTree}
    (h : child entries name = .ok sub) (rest : List String) :
    find (.folder entries) (name :: rest) = find sub rest := by
  rw [find, h]

/-- The search ends where there is no child. -/
theorem find_cons_error {entries : List (String × FileTree)} {name : String} {cause : SystemError}
    (h : child entries name = .error cause) (rest : List String) :
    find (.folder entries) (name :: rest) = .error cause := by
  rw [find, h]

/-- Something can be put at the end of the names: something stands there, or the folder that it
would stand in. -/
inductive Free (tree : FileTree) (names : List String) : Prop
  | taken {node : FileTree} (h : tree.find names = .ok node) : Free tree names
  | missing {entries : List (String × FileTree)} (h : tree.find names = .error .notFound)
      (hfolder : tree.find names.dropLast = .ok (.folder entries)) : Free tree names

/-- A place below a child is one in it. -/
theorem Free.of_child {entries : List (String × FileTree)} {name : String} {rest : List String}
    {sub : FileTree} (h : Free (.folder entries) (name :: rest))
    (hchild : child entries name = .ok sub) : Free sub rest := by
  cases h with
  | taken hnode => exact .taken (find_cons hchild rest ▸ hnode)
  | missing hnone hfolder =>
      rw [find_cons hchild] at hnone
      cases rest with
      | nil => cases hnone
      | cons next rest =>
          rw [List.dropLast_cons_of_ne_nil (List.cons_ne_nil _ _), find_cons hchild] at hfolder
          exact .missing hnone hfolder

/-- A place that is not below a child is a new child. -/
theorem Free.of_child_error {entries : List (String × FileTree)} {name : String}
    {rest : List String} {cause : SystemError} (h : Free (.folder entries) (name :: rest))
    (hchild : child entries name = .error cause) : cause = .notFound ∧ rest = [] := by
  cases h with
  | taken hnode =>
      rw [find_cons_error hchild] at hnode
      cases hnode
  | missing hnone hfolder =>
      rw [find_cons_error hchild] at hnone
      refine ⟨Except.error.inj hnone, ?_⟩
      by_contra hrest
      rw [List.dropLast_cons_of_ne_nil hrest, find_cons_error hchild] at hfolder
      cases hfolder

/-- What is put at the end of the names stands there. -/
theorem find_graft (h : Free tree names) : (graft other tree names).find names = .ok other := by
  induction names generalizing tree with
  | nil => rw [graft, find]
  | cons name rest ih =>
      cases tree with
      | file content =>
          rcases h with hnode | ⟨hnone, -⟩
          · cases hnode
          · cases hnone
      | folder entries =>
          rw [graft]
          rcases hchild : child entries name with cause | sub
          · obtain ⟨rfl, rfl⟩ := h.of_child_error hchild
            rw [find_cons (child_setEntry (child_eq_notFound hchild) _ _), graft, find]
          · obtain ⟨hname, hlookup⟩ := child_eq_ok hchild
            rw [find_cons (child_setEntry hname _ _), hlookup]
            exact ih (h.of_child hchild)

/-- Every folder of the one tree is one of the other. -/
def KeepsFolders (tree other : FileTree) : Prop :=
  ∀ names entries, tree.find names = .ok (.folder entries) →
    ∃ entries', other.find names = .ok (.folder entries')

/-- No folder is lost where none is replaced. -/
theorem keepsFolders_graft (h : ∀ entries, tree.find names ≠ .ok (.folder entries)) :
    KeepsFolders tree (graft other tree names) := by
  intro place found hfound
  induction names generalizing tree place with
  | nil =>
      cases tree with
      | folder entries => exact absurd rfl (h entries)
      | file content => cases place <;> cases hfound
  | cons name rest ih =>
      cases tree with
      | file content => cases place <;> cases hfound
      | folder entries =>
          cases place with
          | nil => exact ⟨_, rfl⟩
          | cons step place =>
              rcases hchild : child entries step with cause | sub
              · rw [find_cons_error hchild] at hfound
                cases hfound
              rw [find_cons hchild] at hfound
              obtain ⟨hname, hlookup⟩ := child_eq_ok hchild
              rw [graft]
              by_cases hstep : step = name
              · subst hstep
                rw [find_cons (child_setEntry hname _ _), hlookup]
                exact ih (fun inner ↦ find_cons hchild rest ▸ h inner) place hfound
              · have hkept := lookup_setEntry_of_ne hstep
                  (graft other ((entries.lookup name).getD empty) rest) entries
                rw [find_cons (child_of_lookup hname (hkept.trans hlookup))]
                exact ⟨_, hfound⟩

/-- A folder that is found is found as a folder. -/
theorem findFolder_of_find {entries : List (String × FileTree)}
    (h : tree.find names = .ok (.folder entries)) : tree.findFolder names = .ok entries := by
  rw [findFolder, h]
  rfl

/-- What is found as a folder is found. -/
theorem find_of_findFolder {entries : List (String × FileTree)}
    (h : tree.findFolder names = .ok entries) : tree.find names = .ok (.folder entries) := by
  rcases hfind : tree.find names with cause | content | found
  all_goals
    rw [findFolder, hfind] at h
    cases h
  rfl

/-- What is done after a folder was found is done after it was found in the other tree. -/
theorem KeepsFolders.findFolder_bind {α : Type} {next next' : Except SystemError α} {result : α}
    (h : KeepsFolders tree other) (hnext : next = .ok result → next' = .ok result)
    (hbind : (tree.findFolder names >>= fun _ ↦ next) = .ok result) :
    (other.findFolder names >>= fun _ ↦ next') = .ok result := by
  rcases hfolder : tree.findFolder names with cause | entries
  · rw [hfolder] at hbind
    cases hbind
  · rw [hfolder] at hbind
    obtain ⟨entries', hother⟩ := h names entries (find_of_findFolder hfolder)
    rw [findFolder_of_find hother]
    exact hnext hbind

/-- The steps of a path lead to the same names. -/
theorem KeepsFolders.follow {steps target : List String} (h : KeepsFolders tree other)
    (hfollow : tree.follow names steps = .ok target) :
    other.follow names steps = .ok target := by
  induction steps generalizing names with
  | nil => exact hfollow
  | cons step rest ih =>
      rw [FileTree.follow] at hfollow ⊢
      split at hfollow
      next hdot =>
        rw [if_pos hdot]
        exact h.findFolder_bind ih hfollow
      next hdot =>
        rw [if_neg hdot]
        split at hfollow
        next hdots =>
          rw [if_pos hdots]
          exact h.findFolder_bind ih hfollow
        next hdots =>
          rw [if_neg hdots]
          exact ih hfollow

/-- A path leads to the same place as long as the folders are kept. -/
theorem KeepsFolders.locate {path : String} {target : List String} (h : KeepsFolders tree other)
    (hlocate : tree.locate path = .ok target) : other.locate path = .ok target := by
  unfold FileTree.locate at hlocate ⊢
  rcases hpath : checkPath path with cause | _
  · rw [hpath] at hlocate
    cases hlocate
  · rw [hpath] at hlocate
    by_cases hempty : path = ""
    · rw [if_pos hempty] at hlocate
      cases hlocate
    · rw [if_neg hempty] at hlocate ⊢
      exact h.follow hlocate

/-! ## Files -/

/-- A file is written where the path leads to, unless a folder stands there. -/
theorem write_eq_ok {path : String} {content : ByteArray} {written : FileTree}
    (h : tree.write path content = .ok written) :
    ∃ names, tree.locate path = .ok names ∧ path.endsWith "/" = false ∧ Free tree names ∧
      (∀ entries, tree.find names ≠ .ok (.folder entries)) ∧
      written = graft (.file content) tree names := by
  unfold write at h
  rcases hlocate : tree.locate path with cause | names
  · rw [hlocate] at h
    cases h
  rw [hlocate] at h
  refine ⟨names, rfl, ?_⟩
  by_cases hbar : path.endsWith "/" = true
  · exfalso
    simp only [hbar, bind, Except.bind, if_true] at h
    rcases hfolder : tree.findFolder names.dropLast with cause | entries <;>
      · rw [hfolder] at h
        cases h
  · simp only [hbar, bind, Except.bind, Bool.false_eq_true, if_false] at h
    refine ⟨Bool.eq_false_of_not_eq_true hbar, ?_⟩
    rcases hfind : tree.find names with cause | ⟨old⟩ | ⟨entries⟩
    · rw [hfind] at h
      cases cause with
      | notFound =>
          rcases hfolder : tree.findFolder names.dropLast with cause | entries
          · simp only [hfolder] at h
            cases h
          · simp only [hfolder] at h
            cases h
            exact ⟨.missing hfind (find_of_findFolder hfolder), by simp, rfl⟩
      | _ => cases h
    · rw [hfind] at h
      cases h
      exact ⟨.taken hfind, by simp, rfl⟩
    · rw [hfind] at h
      cases h

/-- A file that was written stands where the path leads to. -/
theorem find_write {path : String} {content : ByteArray} {written : FileTree}
    (h : tree.write path content = .ok written) :
    ∃ names, written.locate path = .ok names ∧ path.endsWith "/" = false ∧
      written.find names = .ok (.file content) := by
  obtain ⟨names, hlocate, hbar, hfree, hfolder, rfl⟩ := write_eq_ok h
  have hkeeps : KeepsFolders tree (graft (.file content) tree names) := keepsFolders_graft hfolder
  exact ⟨names, hkeeps.locate hlocate, hbar, find_graft hfree⟩

/-- A file that was written is read back. -/
theorem read_write {path : String} {content : ByteArray} {written : FileTree}
    (h : tree.write path content = .ok written) : written.read path = .ok content := by
  obtain ⟨names, hlocate, hbar, hfind⟩ := find_write h
  rw [read, hlocate]
  simp [hfind, hbar, bind, Except.bind, pure, Except.pure]

/-- After a file was written the tree holds it. -/
theorem holds_write {path : String} {content : ByteArray} {written : FileTree}
    (h : tree.write path content = .ok written) : written.holds path = true := by
  obtain ⟨names, hlocate, -, hfind⟩ := find_write h
  rw [holds, hlocate]
  simp only [hfind]
  rfl

end Moire.FileTree

namespace Moire

/-! ## Documents -/

/-- A text is read back from its bytes. -/
theorem fromUTF8?_toUTF8 (text : String) : String.fromUTF8? text.toUTF8 = some text := by
  simp only [String.fromUTF8?, String.toUTF8_eq_toByteArray, dif_pos text.isValidUTF8]
  rfl

/-- A document that was written is read with null for the reals that are not finite. -/
theorem readDocument_writeDocument {β : Type} {form : Json.Form} (hfinite : form.ReadsFinite)
    (hnull : form.WritesNull) {files written : FileTree} {path : String} {v : Json} (hv : v.Fits)
    (h : writeDocument form files path v = .ok written) (decode : Json → Option β) :
    readDocument form written path decode =
      (decode v.readBack).elim (fail (.transfer path Error.undecodable)) .ok := by
  unfold writeDocument at h
  split at h
  next tree hwrite =>
    cases h
    rw [readDocument, FileTree.read_write hwrite]
    simp only [fromUTF8?_toUTF8, Option.bind_some, Json.Form.read?_write hfinite hnull hv]
    cases decode v.readBack <;> rfl
  next => cases h

end Moire
