import Mathlib
import Moire.Proofs.DocumentNumbers
import Moire.Proofs.FloatDifference

/-!
# The standard form of documents

The form that puts one member on each line meets what is assumed of a form of documents
(`readsFinite_standard`, `writesNull_standard`, `refusesNull_standard`). That the text of a document
is read back, `parse?_pretty`, is proved by induction on the document, for a value in front of any
text that cannot continue a number, and for more steps than the value has characters (`readsBack`).
-/

namespace Moire.Json

/-! ## Reals without a text -/

/-- The reals that have a text in documents are the finite ones. -/
theorem isSome_document? (x : Float) : (Layout.document? x).isSome = x.isFinite := by
  have hfinite : x.isFinite = (Binary64.ofFloat x).unpacked.isFinite := by
    rw [← Binary64.unpack_toModel]
    rfl
  rw [hfinite]
  unfold Layout.document?
  rcases Binary64.ofFloat x with _ | negative | ⟨negative, m, e⟩
  · rfl
  · rfl
  · rw [Binary64.isFinite_unpacked]
    dsimp only
    split <;> rfl

/-! ## Texts in quotes -/

/-- A hexadecimal digit is read as the number it was written for. -/
theorem hexValue_hexDigit {n : ℕ} (h : n < 16) : hexValue (hexDigit n) = some n := by
  interval_cases n <;> decide

/-- A control character is read from its number. -/
theorem hexQuad_control {c : Char} (h : c.toNat < 32) :
    hexQuad '0' '0' (hexDigit (c.toNat / 16)) (hexDigit c.toNat) = some c.toNat := by
  have hlast : hexValue (hexDigit c.toNat) = some (c.toNat % 16) := by
    rw [← hexValue_hexDigit (Nat.mod_lt c.toNat (by decide))]
    simp [hexDigit]
  have hfirst : hexValue (hexDigit (c.toNat / 16)) = some (c.toNat / 16) :=
    hexValue_hexDigit (by omega)
  have hzero : hexValue '0' = some 0 := by decide
  simp [hexQuad, hlast, hfirst, hzero]
  omega

/-- A character is read back from its escape. -/
theorem quotedRest_escape (c : Char) (done rest : List Char) :
    quotedRest true none done (escape c ++ rest) = quotedRest true none (c :: done) rest := by
  unfold escape
  split
  next h => subst h; rfl
  split
  next h => subst h; rfl
  split
  next h => subst h; rfl
  split
  next h => subst h; rfl
  split
  next h => subst h; rfl
  split
  next h => subst h; rfl
  split
  next h => subst h; rfl
  split
  next hcontrol =>
    -- A control character has no name of its own and stands for no surrogate.
    have hhigh : isHighSurrogate c.toNat = false := by
      simp [isHighSurrogate]
      omega
    have hlow : isLowSurrogate c.toNat = false := by
      simp [isLowSurrogate]
      omega
    simp [quotedRest, hexQuad_control hcontrol, hhigh, hlow]
  next hquote hbar _ _ _ _ _ hprintable =>
    rw [List.singleton_append, quotedRest.eq_def]
    split <;> simp_all

/-- A text whose characters are escaped one by one is read up to its closing quote. -/
theorem quotedRest_flatMap (text done rest : List Char) :
    quotedRest true none done (text.flatMap escape ++ '"' :: rest) =
      some (some (String.ofList (done.reverse ++ text)), rest) := by
  induction text generalizing done with
  | nil => simp [quotedRest]
  | cons c text ih =>
      rw [List.flatMap_cons, List.append_assoc, quotedRest_escape, ih, List.reverse_cons,
        List.append_assoc, List.singleton_append]

/-- A text is read back from its quotes. -/
theorem quotedText_quote (text : String) (rest : List Char) :
    ∃ inner, (quote text).toList ++ rest = '"' :: inner ∧
      quotedText inner = some (some text, rest) := by
  refine ⟨text.toList.flatMap escape ++ '"' :: rest, by simp [quote], ?_⟩
  rw [quotedText, quotedRest_flatMap]
  simp

/-! ## Blanks -/

/-- The line break between two entries is skipped, with its indentation. -/
theorem skipBlanks_newline (level : ℕ) (text : List Char) :
    skipBlanks ((newline level).toList ++ text) = skipBlanks text := by
  have hblank : ∀ c ∈ (newline level).toList, isBlank c := by
    intro c hc
    simp only [newline, String.toList_append, String.toList_ofList, List.mem_append,
      List.mem_replicate] at hc
    rcases hc with hc | ⟨-, rfl⟩
    · obtain rfl : c = '\n' := by simpa using hc
      decide
    · decide
  exact List.dropWhile_append_of_pos hblank

/-- A character that is not blank stops the skipping. -/
theorem skipBlanks_of_not_blank {c : Char} (h : isBlank c = false) (text : List Char) :
    skipBlanks (c :: text) = c :: text :=
  List.dropWhile_cons_of_neg (by simp [h])

/-- After blanks are skipped there are none left to skip. -/
theorem skipBlanks_skipBlanks (text : List Char) :
    skipBlanks (skipBlanks text) = skipBlanks text :=
  List.dropWhile_idempotent _ text

/-- A value is read behind blanks. -/
theorem value_skipBlanks (steps : ℕ) (text : List Char) :
    value steps (skipBlanks text) = value steps text := by
  cases steps with
  | zero => rfl
  | succ steps => rw [value, value, skipBlanks_skipBlanks]

/-! ## Numbers and words -/

/-- What is read as a number begins with a sign or a digit. -/
theorem exists_head_of_number {text rest : List Char} {result : Json}
    (h : number text = some (result, rest)) :
    ∃ c tail, text = c :: tail ∧ (c = '-' ∨ c.isDigit) := by
  cases text with
  | nil => cases h
  | cons c tail =>
      refine ⟨c, tail, rfl, ?_⟩
      by_contra hnot
      obtain ⟨hsign, hdigit⟩ := not_or.mp hnot
      rw [number_plus (by simpa using hsign), unsignedNumber] at h
      simp [hdigit] at h

/-- A number is read as a value. -/
theorem value_of_number {text rest : List Char} {result : Json}
    (h : number text = some (result, rest)) (steps : ℕ) :
    value (steps + 1) text = some (result, rest) := by
  obtain ⟨c, tail, rfl, hc⟩ := exists_head_of_number h
  have hblank : isBlank c = false := by
    rcases hc with rfl | hc
    · decide
    · by_contra hblank
      simp only [isBlank, Bool.not_eq_false, Bool.or_eq_true, decide_eq_true_eq] at hblank
      rcases hblank with ((rfl | rfl) | rfl) | rfl <;> exact absurd hc (by decide)
  rw [value, skipBlanks_of_not_blank hblank]
  split <;> first | exact h | skip
  all_goals
    rename_i heq
    cases heq
    exact absurd hc (by decide)

/-- The word for nothing is read as nothing. -/
theorem value_null (steps : ℕ) (rest : List Char) :
    value (steps + 1) ("null".toList ++ rest) = some (.null, rest) := by
  simp [value, skipBlanks, isBlank, word]

/-- The end of the text ends a number. -/
theorem endsNumber_nil : EndsNumber [] := by
  intro c hc
  cases hc

/-- A comma ends a number. -/
theorem endsNumber_comma (rest : List Char) : EndsNumber (',' :: rest) := by
  rintro c ⟨⟩
  decide

/-- A line break ends a number. -/
theorem endsNumber_newline (level : ℕ) (rest : List Char) :
    EndsNumber ((newline level).toList ++ rest) := by
  rw [newline, String.toList_append, List.append_assoc]
  rintro c ⟨⟩
  decide

/-! ## Lines between brackets -/

/-- The lines behind the first one, each behind a comma. -/
def laterLines (level : ℕ) (lines : List String) : List Char :=
  lines.flatMap fun line ↦ ',' :: ((newline level).toList ++ line.toList)

/-- Every line after the first follows a comma and a line break. -/
theorem laterLines_cons (level : ℕ) (line : String) (lines : List String) :
    laterLines level (line :: lines) =
      ',' :: ((newline level).toList ++ line.toList ++ laterLines level lines) :=
  List.flatMap_cons

/-- Lines joined by commas are the first line and, after a comma each, the others. -/
theorem toList_intercalate_comma (line : String) (lines : List String) :
    (String.intercalate "," (line :: lines)).toList =
      line.toList ++ lines.flatMap fun line ↦ ',' :: line.toList := by
  induction lines generalizing line with
  | nil => simp [String.intercalate_singleton]
  | cons next lines ih =>
      rw [String.intercalate_cons_cons, String.toList_append, ih, String.toList_append]
      simp

/-- The characters between two brackets: the first line, the later lines and the last line break. -/
theorem toList_bracketed (opening closing : String) (level : ℕ) (line : String)
    (lines : List String) :
    (bracketed opening closing level (line :: lines)).toList =
      opening.toList ++ ((newline (level + 1)).toList ++ (line.toList ++
        (laterLines (level + 1) lines ++ ((newline level).toList ++ closing.toList)))) := by
  simp only [bracketed, List.isEmpty_cons, Bool.false_eq_true, if_false, List.map_cons,
    String.toList_append, toList_intercalate_comma, List.append_assoc, laterLines,
    List.flatMap_map]

/-- The items of an array are written each on its own. -/
theorem prettyItems_eq (level : ℕ) (items : List Json) :
    prettyItems level items = items.map (prettyAt level) := by
  induction items with
  | nil => rfl
  | cons item rest ih => rw [prettyItems, ih, List.map_cons]

/-- The line of a member of an object. -/
def memberLine (level : ℕ) (member : String × Json) : String :=
  quote member.1 ++ ": " ++ prettyAt level member.2

/-- The members of an object are written each on its own. -/
theorem prettyMembers_eq (level : ℕ) (members : List (String × Json)) :
    prettyMembers level members = members.map (memberLine level) := by
  induction members with
  | nil => rfl
  | cons member rest ih => rw [prettyMembers, ih, List.map_cons, memberLine]

/-- A value is read back from its text at a level, wherever it stands. -/
def ReadsBack (level : ℕ) (v : Json) : Prop :=
  ∀ steps rest, EndsNumber rest → (prettyAt level v).toList.length < steps →
    value steps ((prettyAt level v).toList ++ rest) = some (v.readBack, rest)

/-- Blanks before an item do not change what is read. -/
theorem items_skipBlanks (steps : ℕ) (done : List Json) (text : List Char) :
    items steps done (skipBlanks text) = items steps done text := by
  cases steps with
  | zero => rfl
  | succ steps => rw [items, items, value_skipBlanks]

/-- A line break before an item does not change what is read. -/
theorem items_newline (steps level : ℕ) (done : List Json) (text : List Char) :
    items steps done ((newline level).toList ++ text) = items steps done text := by
  rw [← items_skipBlanks, skipBlanks_newline, items_skipBlanks]

/-- The skipping stops at the closing bracket after a line break. -/
theorem skipBlanks_closing (level : ℕ) {c : Char} (h : isBlank c = false) (rest : List Char) :
    skipBlanks ((newline level).toList ++ c :: rest) = c :: rest := by
  rw [skipBlanks_newline, skipBlanks_of_not_blank h]

/-- The item before the closing bracket ends the array. -/
theorem items_last {steps level : ℕ} {done : List Json} {item : Json} {text rest : List Char}
    (h : value steps text = some (item, (newline level).toList ++ ']' :: rest)) :
    items (steps + 1) done text = some (.array (item :: done).reverse, rest) := by
  simp [items, h, skipBlanks_closing level (show isBlank ']' = false by decide)]

/-- An item before a comma joins the items already read. -/
theorem items_next {steps : ℕ} {done : List Json} {item : Json} {text rest : List Char}
    (h : value steps text = some (item, ',' :: rest)) :
    items (steps + 1) done text = items steps (item :: done) rest := by
  simp [items, h, skipBlanks_of_not_blank (show isBlank ',' = false by decide)]

/-- The items of an array are read back line by line. -/
theorem items_lines {level : ℕ} {item : Json} {others : List Json}
    (h : ∀ v ∈ item :: others, ReadsBack (level + 1) v) {steps : ℕ} (done : List Json)
    (rest : List Char)
    (hsteps : (prettyAt (level + 1) item).toList.length +
      (laterLines (level + 1) (others.map (prettyAt (level + 1)))).length + 1 < steps) :
    items steps done ((prettyAt (level + 1) item).toList ++
        (laterLines (level + 1) (others.map (prettyAt (level + 1))) ++
          ((newline level).toList ++ ']' :: rest))) =
      some (.array (done.reverse ++ (item :: others).map readBack), rest) := by
  induction others generalizing item steps done with
  | nil =>
      obtain ⟨steps, rfl⟩ := Nat.exists_eq_succ_of_ne_zero (show steps ≠ 0 by omega)
      have hitem := h item List.mem_cons_self steps ((newline level).toList ++ ']' :: rest)
        (endsNumber_newline _ _) (by omega)
      rw [show laterLines (level + 1) (List.map _ []) = [] from rfl, List.nil_append,
        items_last hitem, List.reverse_cons]
      rfl
  | cons next others ih =>
      obtain ⟨steps, rfl⟩ := Nat.exists_eq_succ_of_ne_zero (show steps ≠ 0 by omega)
      rw [List.map_cons, laterLines_cons, List.length_cons, List.length_append,
        List.length_append] at hsteps
      rw [List.map_cons, laterLines_cons, List.cons_append]
      rw [items_next (h item List.mem_cons_self steps _ (endsNumber_comma _) (by omega)),
        List.append_assoc, List.append_assoc, items_newline,
        ih (fun v hv ↦ h v (List.mem_cons_of_mem _ hv)) (item.readBack :: done) (by omega),
        List.reverse_cons, List.append_assoc]
      rfl

/-! ## Members of an object -/

/-- Members as the reader collects them. -/
def collected (members : List (String × Json)) : List (Option String × Json) :=
  members.map fun member ↦ (some member.1, member.2)

/-- A member whose name could be read. -/
def named (member : Option String × Json) : Option (String × Json) :=
  member.1.map (·, member.2)

/-- Members that were written with names all have one. -/
theorem mapM_named_collected (members : List (String × Json)) :
    (collected members).mapM named = some members := by
  induction members with
  | nil => rfl
  | cons member rest ih =>
      show List.mapM named ((some member.1, member.2) :: collected rest) = some (member :: rest)
      rw [List.mapM_cons, ih]
      rfl

/-- The collected members make up the object again. -/
theorem ofMembers_collected (members : List (String × Json)) :
    ofMembers (collected members) = .object members := by
  unfold ofMembers
  split
  next found hfound =>
    exact congrArg Json.object (Option.some.inj (hfound.symm.trans (mapM_named_collected members)))
  next hnone => cases hnone.symm.trans (mapM_named_collected members)

/-- Blanks before a member do not change what is read. -/
theorem members_skipBlanks (steps : ℕ) (done : List (Option String × Json)) (text : List Char) :
    members steps done (skipBlanks text) = members steps done text := by
  cases steps with
  | zero => rfl
  | succ steps => rw [members, members, skipBlanks_skipBlanks]

/-- A line break before a member does not change what is read. -/
theorem members_newline (steps level : ℕ) (done : List (Option String × Json))
    (text : List Char) :
    members steps done ((newline level).toList ++ text) = members steps done text := by
  rw [← members_skipBlanks, skipBlanks_newline, members_skipBlanks]

/-- The name of a member is told from its value. -/
theorem exists_memberLine (level : ℕ) (member : String × Json) (rest : List Char) :
    ∃ inner, (memberLine level member).toList ++ rest = '"' :: inner ∧
      quotedText inner =
        some (some member.1, ':' :: ' ' :: ((prettyAt level member.2).toList ++ rest)) := by
  obtain ⟨inner, hquote, hname⟩ :=
    quotedText_quote member.1 (':' :: ' ' :: ((prettyAt level member.2).toList ++ rest))
  refine ⟨inner, ?_, hname⟩
  rw [← hquote, memberLine]
  simp

/-- The blank after a colon is skipped. -/
theorem value_blank (steps : ℕ) (text : List Char) :
    value steps (' ' :: text) = value steps text := by
  rw [← value_skipBlanks, ← value_skipBlanks steps text]
  rfl

/-- The member before the closing brace ends the object. -/
theorem members_last {steps inside level : ℕ} {done : List (String × Json)}
    {member : String × Json} {v : Json} {text rest : List Char}
    (h : value steps ((prettyAt inside member.2).toList ++ text) =
      some (v, (newline level).toList ++ '\x7d' :: rest)) :
    members (steps + 1) (collected done) ((memberLine inside member).toList ++ text) =
      some (.object ((member.1, v) :: done).reverse, rest) := by
  obtain ⟨inner, hline, hname⟩ := exists_memberLine inside member text
  have hobject := ofMembers_collected ((member.1, v) :: done).reverse
  rw [collected, List.map_reverse, List.map_cons] at hobject
  rw [hline, members, skipBlanks_of_not_blank (by decide)]
  simp only [hname, skipBlanks_of_not_blank (show isBlank ':' = false by decide), value_blank, h,
    skipBlanks_closing level (show isBlank '\x7d' = false by decide), Option.bind_eq_bind,
    Option.bind_some]
  exact congrArg (fun v ↦ some (v, rest)) hobject

/-- A member before a comma joins the members already read. -/
theorem members_next {steps inside : ℕ} {done : List (String × Json)}
    {member : String × Json} {v : Json} {text rest : List Char}
    (h : value steps ((prettyAt inside member.2).toList ++ text) = some (v, ',' :: rest)) :
    members (steps + 1) (collected done) ((memberLine inside member).toList ++ text) =
      members steps (collected ((member.1, v) :: done)) rest := by
  obtain ⟨inner, hline, hname⟩ := exists_memberLine inside member text
  rw [hline, members, skipBlanks_of_not_blank (by decide)]
  simp only [hname, skipBlanks_of_not_blank (show isBlank ':' = false by decide), value_blank, h,
    skipBlanks_of_not_blank (show isBlank ',' = false by decide), Option.bind_eq_bind,
    Option.bind_some]
  rfl

/-- The value of a member is shorter than its line. -/
theorem length_memberLine (level : ℕ) (member : String × Json) :
    (prettyAt level member.2).toList.length < (memberLine level member).toList.length := by
  rw [memberLine, String.toList_append, String.toList_append, List.length_append,
    List.length_append]
  have hblank : (": ").toList.length = 2 := rfl
  omega

/-- The members of an object are read back line by line. -/
theorem members_lines {level : ℕ} {member : String × Json} {others : List (String × Json)}
    (h : ∀ m ∈ member :: others, ReadsBack (level + 1) m.2) {steps : ℕ}
    (done : List (String × Json)) (rest : List Char)
    (hsteps : (memberLine (level + 1) member).toList.length +
      (laterLines (level + 1) (others.map (memberLine (level + 1)))).length < steps) :
    members steps (collected done) ((memberLine (level + 1) member).toList ++
        (laterLines (level + 1) (others.map (memberLine (level + 1))) ++
          ((newline level).toList ++ '\x7d' :: rest))) =
      some (.object (done.reverse ++
        (member :: others).map fun m ↦ (m.1, m.2.readBack)), rest) := by
  have hlength := length_memberLine (level + 1) member
  induction others generalizing member steps done with
  | nil =>
      obtain ⟨steps, rfl⟩ := Nat.exists_eq_succ_of_ne_zero (show steps ≠ 0 by omega)
      have hvalue := h member List.mem_cons_self steps ((newline level).toList ++ '\x7d' :: rest)
        (endsNumber_newline _ _) (by omega)
      rw [show laterLines (level + 1) (List.map _ []) = [] from rfl, List.nil_append,
        members_last hvalue, List.reverse_cons]
      rfl
  | cons next others ih =>
      obtain ⟨steps, rfl⟩ := Nat.exists_eq_succ_of_ne_zero (show steps ≠ 0 by omega)
      rw [List.map_cons, laterLines_cons, List.length_cons, List.length_append,
        List.length_append] at hsteps
      rw [List.map_cons, laterLines_cons, List.cons_append]
      rw [members_next (h member List.mem_cons_self steps _ (endsNumber_comma _) (by omega)),
        List.append_assoc, List.append_assoc, members_newline,
        ih (fun m hm ↦ h m (List.mem_cons_of_mem _ hm)) _ (by omega) (length_memberLine _ _),
        List.reverse_cons, List.append_assoc]
      rfl

/-! ## Values -/

/-- A value that is read does not begin with a closing bracket. -/
theorem skipBlanks_ne_bracket {steps : ℕ} {text rest : List Char} {result : Json}
    (h : value steps text = some (result, rest)) (tail : List Char) :
    skipBlanks text ≠ ']' :: tail := by
  intro hbracket
  rw [← value_skipBlanks, hbracket] at h
  cases steps <;> cases h

/-- An array that is not closed at once has items. -/
theorem value_bracket {steps : ℕ} {text : List Char} (h : ∀ tail, skipBlanks text ≠ ']' :: tail) :
    value (steps + 1) ('[' :: text) = items steps [] text := by
  rw [value, skipBlanks_of_not_blank (by decide), ← items_skipBlanks]
  -- By `h` the rest falls to the second case.
  simp

/-- A line break is not empty. -/
theorem length_newline_pos (level : ℕ) : 0 < (newline level).toList.length := by
  rw [newline, String.toList_append, List.length_append]
  exact Nat.add_pos_left Nat.one_pos _

/-- An array is read back when each of its items is, one level deeper. -/
theorem readsBack_array {level : ℕ} {list : List Json}
    (h : ∀ item ∈ list, ReadsBack (level + 1) item) : ReadsBack level (.array list) := by
  intro steps rest _ hsteps
  obtain ⟨steps, rfl⟩ := Nat.exists_eq_succ_of_ne_zero (Nat.ne_zero_of_lt hsteps)
  rw [prettyAt, prettyItems_eq] at hsteps ⊢
  rw [readBack, readBackItems_eq]
  cases list with
  | nil => simp [bracketed, value, skipBlanks, isBlank]
  | cons item others =>
      rw [List.map_cons, toList_bracketed] at hsteps ⊢
      have hinside := length_newline_pos (level + 1)
      have hbelow := length_newline_pos level
      have hitems : items steps [] _ = _ := items_lines h [] rest (by
        simp only [List.length_append] at hsteps
        omega)
      have hfirst := skipBlanks_ne_bracket (h item List.mem_cons_self _
        (laterLines (level + 1) (others.map (prettyAt (level + 1))) ++
          ((newline level).toList ++ ']' :: rest)) (by
          cases others with
          | nil => exact endsNumber_newline _ _
          | cons next others => exact endsNumber_comma _) (Nat.lt_succ_self _))
      simp only [List.append_assoc]
      show value (steps + 1) ('[' :: ((newline (level + 1)).toList ++
        ((prettyAt (level + 1) item).toList ++
          (laterLines (level + 1) (others.map (prettyAt (level + 1))) ++
            ((newline level).toList ++ ']' :: rest))))) = _
      rw [value_bracket (by rwa [skipBlanks_newline]), items_newline]
      exact hitems

/-- An object is read back when the value of each member is, one level deeper. -/
theorem readsBack_object {level : ℕ} {list : List (String × Json)}
    (h : ∀ member ∈ list, ReadsBack (level + 1) member.2) : ReadsBack level (.object list) := by
  intro steps rest _ hsteps
  obtain ⟨steps, rfl⟩ := Nat.exists_eq_succ_of_ne_zero (Nat.ne_zero_of_lt hsteps)
  rw [prettyAt, prettyMembers_eq] at hsteps ⊢
  rw [readBack, readBackMembers_eq]
  cases list with
  | nil => simp [bracketed, value, skipBlanks, isBlank]
  | cons member others =>
      rw [List.map_cons, toList_bracketed] at hsteps ⊢
      have hnewline := length_newline_pos (level + 1)
      have hmembers : members steps (collected []) _ = _ := members_lines h [] rest (by
        simp only [List.length_append] at hsteps
        omega)
      obtain ⟨inner, hline, -⟩ := exists_memberLine (level + 1) member
        (laterLines (level + 1) (others.map (memberLine (level + 1))) ++
          ((newline level).toList ++ '\x7d' :: rest))
      simp only [List.append_assoc]
      show value (steps + 1) ('\x7b' :: ((newline (level + 1)).toList ++
        ((memberLine (level + 1) member).toList ++
          (laterLines (level + 1) (others.map (memberLine (level + 1))) ++
            ((newline level).toList ++ '\x7d' :: rest))))) = _
      rw [hline] at hmembers ⊢
      rw [value, skipBlanks_of_not_blank (by decide)]
      simp only [skipBlanks_newline, skipBlanks_of_not_blank (show isBlank '"' = false by decide)]
      exact hmembers

/-- A value is read back from its text, wherever it stands. -/
theorem readsBack {v : Json} (h : v.Fits) (level : ℕ) : ReadsBack level v := by
  induction h generalizing level with
  | @array items h ih => exact readsBack_array fun item hitem ↦ ih item hitem (level + 1)
  | @object members h ih =>
      exact readsBack_object fun member hmember ↦ ih member hmember (level + 1)
  | null =>
      intro steps rest _ hsteps
      obtain ⟨steps, rfl⟩ := Nat.exists_eq_succ_of_ne_zero (Nat.ne_zero_of_lt hsteps)
      exact value_null steps rest
  | bool truth =>
      intro steps rest _ hsteps
      obtain ⟨steps, rfl⟩ := Nat.exists_eq_succ_of_ne_zero (Nat.ne_zero_of_lt hsteps)
      cases truth <;> simp [prettyAt, compact, readBack, value, skipBlanks, isBlank, word]
  | integer h =>
      intro steps rest hrest hsteps
      obtain ⟨steps, rfl⟩ := Nat.exists_eq_succ_of_ne_zero (Nat.ne_zero_of_lt hsteps)
      exact value_of_number (number_repr h hrest) steps
  | real x =>
      intro steps rest hrest hsteps
      obtain ⟨steps, rfl⟩ := Nat.exists_eq_succ_of_ne_zero (Nat.ne_zero_of_lt hsteps)
      rw [prettyAt, realText, readBack, ← isSome_document?]
      cases htext : Layout.document? x with
      | none => exact value_null steps rest
      | some text => exact value_of_number (number_document htext hrest) steps
  | string text =>
      intro steps rest _ hsteps
      obtain ⟨steps, rfl⟩ := Nat.exists_eq_succ_of_ne_zero (Nat.ne_zero_of_lt hsteps)
      obtain ⟨inner, hquote, htext⟩ := quotedText_quote text rest
      rw [prettyAt, readBack, hquote, value, skipBlanks_of_not_blank (by decide)]
      simp [htext]

/-- The text of a document is read as the document, with null for what is not finite. -/
theorem parse?_pretty {v : Json} (h : v.Fits) : parse? v.pretty = some v.readBack := by
  have hvalue : value (2 * v.pretty.toList.length + 2) v.pretty.toList = some (v.readBack, []) := by
    rw [← List.append_nil v.pretty.toList]
    refine readsBack h 0 _ [] endsNumber_nil ?_
    rw [List.append_nil, pretty]
    omega
  simp only [parse?, hvalue, Option.bind_eq_bind, Option.bind_some]
  rfl

/-! ## The assumptions on a form -/

/-- A document has the text of what it is read back as. -/
theorem prettyAt_readBack {v : Json} (h : v.Fits) (level : ℕ) :
    prettyAt level v.readBack = prettyAt level v := by
  induction h generalizing level with
  | real x =>
      rw [readBack, ← isSome_document?]
      cases htext : Layout.document? x with
      | none => simp only [prettyAt, realText, htext]; rfl
      | some text => rfl
  | @array items _ ih =>
      rw [readBack, readBackItems_eq, prettyAt, prettyAt, prettyItems_eq, prettyItems_eq,
        List.map_map]
      exact congrArg (bracketed _ _ _) (List.map_congr_left fun item hitem ↦
        ih item hitem (level + 1))
  | @object members _ ih =>
      rw [readBack, readBackMembers_eq, prettyAt, prettyAt, prettyMembers_eq, prettyMembers_eq,
        List.map_map]
      refine congrArg (bracketed _ _ _) (List.map_congr_left fun member hmember ↦ ?_)
      simp only [Function.comp_apply, memberLine, ih member hmember (level + 1)]
  | null | bool | integer | string => rfl

/-- Finite reals are read back from their digits. -/
theorem readsFinite_standard : Form.standard.ReadsFinite where
  document hv hfinite := (parse?_pretty hv).trans (congrArg some hfinite)
  real hx := if_pos hx
  optionalReal hx := congrArg (Option.map some) (if_pos hx)

/-- A real without digits is written as null. -/
theorem writesNull_standard : Form.standard.WritesNull :=
  fun _ hv ↦ (prettyAt_readBack hv 0).symm

/-- Null is no real. -/
theorem refusesNull_standard : Form.standard.RefusesNull where
  real := rfl
  optionalReal := rfl

end Moire.Json
