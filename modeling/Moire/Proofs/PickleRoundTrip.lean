import Mathlib.Tactic
import Moire.Proofs.CacheTransparency
import Moire.Proofs.NearestFloat
import Moire.Proofs.WrittenFiles
import Moire.Store.Folder

/-!
# Arrays in files

A pickle is a program, so that an array is read back from its pickle is a statement about a run of
the machine. `Reaches` says what the machine does with the first bytes of a program, and `Pushes`
that some bytes put an item on the stack, whatever is there already and whatever follows. The codes
of counts, floats, texts and lists are of this kind, and with them a whole pickle leaves a
dictionary of the shape and the data (`reaches_encode`), which is read as the array
(`decode?_encode`). The entries of the shape have to fit a signed word, since no others are read.
So arrays are found again in the stores of the program, `KeepsSaved`.
-/

namespace Moire.Pickle

/-! ## Bytes -/

/-- The loop of the library lists the bytes from an index on, after those already listed. -/
theorem toList_loop (bytes : ByteArray) (i : ℕ) (before : List UInt8) :
    ByteArray.toList.loop bytes i before = before.reverse ++ bytes.data.toList.drop i := by
  rw [ByteArray.toList.loop]
  split
  next hi =>
    have hdata : i < bytes.data.toList.length := by simpa using hi
    have hget : bytes.get! i = bytes.data.toList[i] := by
      simp [ByteArray.get!, hi]
    rw [toList_loop bytes (i + 1), hget, List.reverse_cons, List.append_assoc,
      List.singleton_append, ← List.drop_eq_getElem_cons hdata]
  next hi =>
    rw [List.drop_eq_nil_of_le (by simpa using hi), List.append_nil]
termination_by bytes.size - i

/-- Bytes made into an array are listed as they were. -/
theorem toList_toByteArray (bytes : List UInt8) : bytes.toByteArray.toList = bytes := by
  rw [ByteArray.toList, toList_loop, List.reverse_nil, List.nil_append, List.drop_zero,
    List.toList_data_toByteArray]

/-- An array is made again from the list of its bytes. -/
theorem toByteArray_toList (bytes : ByteArray) : bytes.toList.toByteArray = bytes := by
  apply ByteArray.ext
  rw [ByteArray.toList, toList_loop, List.reverse_nil, List.nil_append, List.drop_zero,
    List.data_toByteArray, Array.toArray_toList]

@[simp] theorem length_littleEndian (count n : ℕ) : (littleEndian count n).length = count := by
  simp [littleEndian]

/-- The lowest byte comes first, then those of the rest of the number. -/
theorem littleEndian_succ (count n : ℕ) :
    littleEndian (count + 1) n = (n % 256).toUInt8 :: littleEndian count (n / 256) := by
  simp only [littleEndian, List.range_succ_eq_map, List.map_cons, List.map_map]
  congr 1
  · simp
  · refine List.map_congr_left fun i _ ↦ ?_
    simp only [Function.comp_apply, Nat.pow_eq, Nat.succ_eq_add_one, pow_succ',
      Nat.div_div_eq_div_mul]

/-- A number is read back from enough of its bytes. -/
theorem ofLittleEndian_littleEndian {count n : ℕ} (h : n < 256 ^ count) :
    ofLittleEndian (littleEndian count n) = n := by
  induction count generalizing n with
  | zero =>
      obtain rfl : n = 0 := by simpa using h
      rfl
  | succ count ih =>
      have hrest : n / 256 < 256 ^ count := Nat.div_lt_of_lt_mul (pow_succ' 256 count ▸ h)
      have hbyte : (n % 256).toUInt8.toNat = n % 256 := Nat.mod_mod n 256
      calc ofLittleEndian (littleEndian (count + 1) n)
          = (n % 256).toUInt8.toNat + 256 * ofLittleEndian (littleEndian count (n / 256)) := by
            rw [littleEndian_succ]
            rfl
        _ = n := by
            rw [ih hrest, hbyte]
            exact Nat.mod_add_div n 256

/-- The eight bytes of a float stand for it. -/
theorem ofFloatBytes_floatBytes (x : Float) : ofFloatBytes (floatBytes x) = x := by
  have hbits : x.toBits.toNat < 256 ^ 8 := x.toBits.toNat_lt
  rw [ofFloatBytes, floatBytes, List.reverse_reverse, ofLittleEndian_littleEndian hbits]
  exact (congrArg Float.ofBits x.toBits.ofNat_toNat).trans (Binary64.ofBits_toBits x)

/-! ## Fields -/

/-- A field is taken off the front. -/
theorem takeBytes_append (field rest : List UInt8) :
    takeBytes field.length (field ++ rest) = some (field, rest) := by
  simp [takeBytes]

/-- A number is taken off the front. -/
theorem takeBytes_littleEndian (count n : ℕ) (rest : List UInt8) :
    takeBytes count (littleEndian count n ++ rest) = some (littleEndian count n, rest) := by
  simpa using takeBytes_append (littleEndian count n) rest

/-- A field behind its length is taken whole. -/
theorem takeField_littleEndian {size : ℕ} {field : List UInt8} (h : field.length < 256 ^ size)
    (rest : List UInt8) :
    takeField size (littleEndian size field.length ++ (field ++ rest)) = some (field, rest) := by
  rw [takeField, takeNumber, takeBytes_littleEndian]
  show takeBytes (ofLittleEndian (littleEndian size field.length)) (field ++ rest) = _
  rw [ofLittleEndian_littleEndian h, takeBytes_append]

/-- A count is not negative, as long as the highest bit of its bytes is free. -/
theorem signedNumber_littleEndian {count n : ℕ} (hcount : 0 < count) (h : 2 * n < 256 ^ count) :
    signedNumber (littleEndian count n) = n := by
  have hsome : (littleEndian count n).isEmpty = false := by
    rw [List.isEmpty_eq_false_iff, ← List.length_pos_iff, length_littleEndian]
    exact hcount
  rw [signedNumber, hsome, length_littleEndian, ofLittleEndian_littleEndian (by omega)]
  have hpow : Nat.pow 256 count = 256 ^ count := rfl
  rw [if_neg Bool.false_ne_true, hpow]
  exact Int.bmod_eq_of_le (by omega) (by omega)

/-- A text is decoded from its own bytes. -/
theorem decodeText_toUTF8 (text : String) : decodeText text.toUTF8.toList = some text := by
  rw [decodeText, toByteArray_toList, fromUTF8?_toUTF8]

/-! ## Running operations -/

/-- The machine runs over some operations and is left with the rest of the bytes. It takes no more
steps than there were bytes. -/
def Reaches (machine : Machine) (bytes : List UInt8) (after : Machine) (rest : List UInt8) : Prop :=
  ∃ used, used + rest.length ≤ bytes.length ∧
    ∀ fuel, Machine.run (fuel + used) machine bytes = Machine.run fuel after rest

/-- Runs of the machine follow one another. -/
theorem Reaches.trans {m m' m'' : Machine} {bytes bytes' bytes'' : List UInt8}
    (h : Reaches m bytes m' bytes') (h' : Reaches m' bytes' m'' bytes'') :
    Reaches m bytes m'' bytes'' := by
  obtain ⟨used, hused, hrun⟩ := h
  obtain ⟨used', hused', hrun'⟩ := h'
  refine ⟨used' + used, by omega, fun fuel ↦ ?_⟩
  rw [← Nat.add_assoc, hrun, hrun']

/-- No step is a run. -/
theorem reaches_refl (machine : Machine) (bytes : List UInt8) :
    Reaches machine bytes machine bytes :=
  ⟨0, by omega, fun _ ↦ rfl⟩

/-- One operation is a run. -/
theorem reaches_operate {machine after : Machine} {code : UInt8} {bytes rest : List UInt8}
    (hcode : code ≠ 0x2e) (h : machine.operate code bytes = some (after, rest))
    (hrest : rest.length ≤ bytes.length) : Reaches machine (code :: bytes) after rest := by
  refine ⟨1, by simp only [List.length_cons]; omega, fun fuel ↦ ?_⟩
  rw [Machine.run, if_neg hcode, h]

/-- The bytes put an item on the stack. -/
def Pushes (code : List UInt8) (item : Item) : Prop :=
  ∀ machine rest, Reaches machine (code ++ rest) (machine.push item) rest

/-- The code of a real pushes it. -/
theorem pushes_floatCode (x : Float) : Pushes (floatCode x) (.real x) := by
  intro machine rest
  refine reaches_operate (by decide) ?_ (by simp)
  have htake : takeBytes 8 (floatBytes x ++ rest) = some (floatBytes x, rest) := by
    simpa [floatBytes] using takeBytes_append (floatBytes x) rest
  show (takeBytes 8 (floatBytes x ++ rest) >>= _) = _
  rw [htake]
  show some (machine.push (.real (ofFloatBytes (floatBytes x))), rest) = _
  rw [ofFloatBytes_floatBytes]

/-- The code of a text pushes it, as long as its length is written in four bytes. -/
theorem pushes_textCode {text : String} (h : text.utf8ByteSize < 256 ^ 4) :
    Pushes (textCode text) (.text text) := by
  intro machine rest
  have hlength : text.toUTF8.toList.length = text.utf8ByteSize := by
    rw [← List.size_toByteArray, toByteArray_toList, String.toUTF8_eq_toByteArray,
      String.size_toByteArray]
  have htake : takeField 4 (littleEndian 4 text.utf8ByteSize ++ (text.toUTF8.toList ++ rest)) =
      some (text.toUTF8.toList, rest) := by
    rw [← hlength]
    exact takeField_littleEndian (hlength ▸ h) rest
  have hrest : rest.length ≤
      (littleEndian 4 text.utf8ByteSize ++ (text.toUTF8.toList ++ rest)).length := by
    rw [List.length_append, List.length_append]
    omega
  rw [textCode, List.cons_append, List.cons_append, List.append_assoc]
  refine reaches_operate (by decide) ?_ hrest
  show (takeField 4 _ >>= _) = _
  rw [htake]
  show (decodeText text.toUTF8.toList >>= _) = _
  rw [decodeText_toUTF8]
  rfl

/-- The item that the code of a count puts on the stack. -/
def countItem (n : ℕ) : Item := if n < 2147483648 then .int n else .long n

/-- The code of a count pushes it, in the short and in the long form. -/
theorem pushes_countCode {n : ℕ} (h : n < memoryLimit) : Pushes (countCode n) (countItem n) := by
  intro machine rest
  unfold countCode countItem
  split
  next hsmall =>
    refine reaches_operate (by decide) ?_ (by simp)
    show (takeBytes 4 (littleEndian 4 n ++ rest) >>= _) = _
    rw [takeBytes_littleEndian]
    show some (machine.push (.int (signedNumber (littleEndian 4 n))), rest) = _
    rw [signedNumber_littleEndian (by decide) (by omega)]
  next hlarge =>
    have hbound : 2 * n < 256 ^ 9 := by
      unfold memoryLimit at h
      omega
    have hrest : rest.length ≤ (9 :: (littleEndian 9 n ++ rest)).length := by
      rw [List.length_cons, List.length_append]
      omega
    refine reaches_operate (by decide) ?_ hrest
    have htake : takeField 1 (littleEndian 1 9 ++ (littleEndian 9 n ++ rest)) =
        some (littleEndian 9 n, rest) := by
      have hlength : (littleEndian 9 n).length < 256 ^ 1 := by simp
      have hfield := takeField_littleEndian hlength rest
      rwa [length_littleEndian] at hfield
    show (takeField 1 (littleEndian 1 9 ++ (littleEndian 9 n ++ rest)) >>= _) = _
    rw [htake]
    show some (machine.push (.long (signedNumber (littleEndian 9 n))), rest) = _
    rw [signedNumber_littleEndian (by decide) hbound]

/-- Codes one after the other put their items on the stack, the last one on top. -/
theorem reaches_flatten {codes : List (List UInt8)} {items : List Item}
    (h : List.Forall₂ Pushes codes items) (machine : Machine) (rest : List UInt8) :
    Reaches machine (codes.flatten ++ rest)
      { machine with stack := items.reverse ++ machine.stack } rest := by
  induction h generalizing machine with
  | nil => exact reaches_refl machine rest
  | @cons code item codes items hcode hcodes ih =>
      have hfirst := hcode machine (codes.flatten ++ rest)
      have hrest := ih (machine.push item)
      rw [List.flatten_cons, List.append_assoc, List.reverse_cons, List.append_assoc]
      exact hfirst.trans hrest

/-- The code of a list pushes the list of what its entries push. -/
theorem pushes_listCode {codes : List (List UInt8)} {items : List Item}
    (h : List.Forall₂ Pushes codes items) : Pushes (listCode codes) (.list items) := by
  have hlist : Pushes [0x5d] (.list []) := fun _ _ ↦ reaches_operate (by decide) rfl le_rfl
  intro machine rest
  unfold listCode
  split
  next hempty =>
    obtain rfl := List.isEmpty_iff.mp hempty
    obtain rfl := List.forall₂_nil_left_iff.mp h
    exact hlist machine rest
  next =>
    -- An empty list and a mark, the items above the mark, and the step that adds them to the list.
    set opened : Machine :=
      { machine with stack := [], marks := (.list [] :: machine.stack) :: machine.marks }
    have hopen : Reaches machine (0x5d :: 0x28 :: (codes.flatten ++ (0x65 :: rest))) opened
        (codes.flatten ++ (0x65 :: rest)) :=
      (hlist machine _).trans (reaches_operate (by decide) rfl le_rfl)
    have hitems := reaches_flatten h opened (0x65 :: rest)
    have hclose : Reaches { opened with stack := items.reverse ++ opened.stack } (0x65 :: rest)
        (machine.push (.list items)) rest := by
      refine reaches_operate (by decide) ?_ le_rfl
      show some (machine.push (.list ([] ++ (items.reverse ++ []).reverse)), rest) = _
      rw [List.append_nil, List.reverse_reverse, List.nil_append]
    simpa using (hopen.trans hitems).trans hclose

/-- The pickle of an array leaves a dictionary of its shape and its data. -/
theorem reaches_encode {array : StoredArray Float} (h : ∀ n ∈ array.shape, n < memoryLimit) :
    Reaches .start (encode array)
      ⟨[.dict [(.text "shape", .list (array.shape.map countItem)),
        (.text "data", .list (array.data.map .real))]], [], ∅⟩ [0x2e] := by
  have hshape : List.Forall₂ Pushes (array.shape.map countCode) (array.shape.map countItem) :=
    List.forall₂_map_left_iff.mpr (List.forall₂_map_right_iff.mpr
      (List.forall₂_same.mpr fun n hn ↦ pushes_countCode (h n hn)))
  have hdata : List.Forall₂ Pushes (array.data.map floatCode) (array.data.map .real) :=
    List.forall₂_map_left_iff.mpr (List.forall₂_map_right_iff.mpr
      (List.forall₂_same.mpr fun x _ ↦ pushes_floatCode x))
  have hentries : List.Forall₂ Pushes
      [textCode "shape", listCode (array.shape.map countCode), textCode "data",
        listCode (array.data.map floatCode)]
      [.text "shape", .list (array.shape.map countItem), .text "data",
        .list (array.data.map .real)] :=
    .cons (pushes_textCode (by decide)) (.cons (pushes_listCode hshape)
      (.cons (pushes_textCode (by decide)) (.cons (pushes_listCode hdata) .nil)))
  set codes := [textCode "shape", listCode (array.shape.map countCode), textCode "data",
    listCode (array.data.map floatCode)] with hcodes
  have hencode : encode array =
      0x80 :: 0x03 :: 0x7d :: 0x28 :: (codes.flatten ++ [0x75, 0x2e]) := by
    simp [encode, hcodes]
  have hopen : Reaches .start (encode array) ⟨[], [[.dict []]], ∅⟩
      (codes.flatten ++ [0x75, 0x2e]) := by
    have hdict : Pushes [0x7d] (.dict []) := fun _ _ ↦ reaches_operate (by decide) rfl le_rfl
    have hversion (bytes : List UInt8) : Reaches .start (0x80 :: 0x03 :: bytes) .start bytes := by
      refine reaches_operate (by decide) ?_ (Nat.le_succ _)
      show (takeBytes 1 ([0x03] ++ bytes) >>= _) = _
      rw [show takeBytes 1 _ = _ from takeBytes_append [0x03] bytes]
      rfl
    rw [hencode]
    exact ((hversion _).trans (hdict _ _)).trans (reaches_operate (by decide) rfl le_rfl)
  refine (hopen.trans (reaches_flatten hentries _ _)).trans ?_
  exact reaches_operate (by decide) rfl le_rfl

/-! ## Reading the items -/

/-- A list of items is read back when each of them is. -/
theorem mapM_read {β : Type} {read : Item → Reading β} {item : β → Item} {values : List β}
    (h : ∀ value ∈ values, ∀ memo, read (item value) memo = some (value, memo)) (memo : Memo) :
    (values.map item).mapM read memo = some (values, memo) := by
  induction values with
  | nil => rfl
  | cons value values ih =>
      rw [List.forall_mem_cons] at h
      rw [List.map_cons, List.mapM_cons]
      show (read (item value) memo >>= _) = _
      rw [h.1]
      show ((values.map item).mapM read memo >>= _) = _
      rw [ih h.2]
      rfl

/-- A count is read back as a size. -/
theorem size_countItem {n : ℕ} (h : n < memoryLimit) (memo : Memo) :
    (countItem n).size memo = some (n, memo) := by
  have hholds : Word.signed64.holds n = true := by
    unfold memoryLimit at h
    rw [Word.holds_iff]
    simp only [Word.signed64]
    omega
  have hint : (countItem n).int? = some (n : ℤ) := by
    unfold countItem
    split <;> exact if_pos hholds
  have hsize : (countItem n).size = (do
      let m ← (countItem n).int?
      if 0 ≤ m then return m.toNat else failure) := by
    unfold countItem
    split <;> rfl
  rw [hsize, hint]
  show (if 0 ≤ (n : ℤ) then pure (n : ℤ).toNat else failure : Reading ℕ) memo = _
  rw [if_pos (Int.natCast_nonneg n)]
  rfl

/-- The dictionary of an array is read back as the array. -/
theorem array_dict {array : StoredArray Float} (h : ∀ n ∈ array.shape, n < memoryLimit)
    (fuel : ℕ) (memo : Memo) :
    (Item.dict [(.text "shape", .list (array.shape.map countItem)),
      (.text "data", .list (array.data.map .real))]).array fuel memo = some (array, memo) := by
  have hshape : (Item.list (array.shape.map countItem)).listOf Item.size memo =
      some (array.shape, memo) :=
    mapM_read (fun n hn ↦ size_countItem (h n hn)) memo
  have hdata : (Item.list (array.data.map .real)).listOf Item.float memo =
      some (array.data, memo) :=
    mapM_read (fun _ _ _ ↦ rfl) memo
  have hadd : ArrayParts.add fuel {} (.text "shape", .list (array.shape.map countItem)) memo =
      some ({ shape := some array.shape }, memo) := by
    show ((Item.list (array.shape.map countItem)).listOf Item.size memo >>= _) = _
    rw [hshape]
    rfl
  have hadd' : ArrayParts.add fuel { shape := some array.shape }
      (.text "data", .list (array.data.map .real)) memo =
      some ({ shape := some array.shape, data := some array.data }, memo) := by
    show ((Item.list (array.data.map .real)).listOf Item.float memo >>= _) = _
    rw [hdata]
    rfl
  show ((ArrayParts.add fuel {} _ memo >>= _) >>= _) = _
  rw [hadd]
  show ((ArrayParts.add fuel _ _ memo >>= _) >>= _) = _
  rw [hadd']
  rfl

/-- An array is read back from its pickle, if the entries of its shape fit a signed word. -/
theorem decode?_encode {array : StoredArray Float} (h : ∀ n ∈ array.shape, n < memoryLimit) :
    decode? (encode array) = some array := by
  obtain ⟨used, hused, hrun⟩ := reaches_encode h
  obtain ⟨fuel, hfuel⟩ : ∃ fuel, (encode array).length + 1 = fuel + 1 + used :=
    ⟨(encode array).length - used, by simp only [List.length_singleton] at hused; omega⟩
  have hread (fuel : ℕ) : ((Item.dict [(.text "shape", .list (array.shape.map countItem)),
      (.text "data", .list (array.data.map .real))]).array fuel).run' ∅ = some array := by
    show Prod.fst <$> Item.array fuel _ ∅ = _
    rw [array_dict h]
    rfl
  have hstop (item : Item) : Machine.run (fuel + 1) ⟨[item], [], ∅⟩ [0x2e] = some (item, ∅, []) :=
    rfl
  rw [decode?, hfuel, hrun, hstop]
  show (StateT.run' (Item.array _ _) ∅ >>= _) = _
  rw [hread]
  rfl

end Moire.Pickle

namespace Moire

/-! ## Stores -/

/-- A store from which arrays of some kind are loaded as they were saved. -/
class KeepsSaved (σ : Type) {α : Type} [ResultCache σ α]
    (kept : outParam (StoredArray α → Prop)) : Prop where
  load_save {store after : σ} {key : String} {array : StoredArray α} :
    kept array → ResultCache.save store key array = .ok after →
      ResultCache.load after key = .ok (some array)

instance {α : Type} : KeepsSaved (MemoryStore α) fun _ ↦ True where
  load_save {store after key array} _ hsave := by
    obtain rfl : store.insert key array = after := Except.ok.inj hsave
    exact congrArg Except.ok ((MemoryStore.get?_insert _ _ _ _).trans (if_pos rfl))

/-- The entries of the shape fit a signed word. -/
def StoredArray.SmallShape {α : Type} (array : StoredArray α) : Prop :=
  ∀ n ∈ array.shape, n < memoryLimit

/-- An array that was written to a file is read back. -/
theorem PickleFolder.load_save {folder after : PickleFolder} {key : String}
    {array : StoredArray Float} (h : array.SmallShape) (hsave : folder.save key array = .ok after) :
    after.load key = .ok (some array) := by
  unfold save at hsave
  split at hsave
  next files hwrite =>
    cases hsave
    have hpath : pathFor { folder with files } key = folder.pathFor key := rfl
    unfold load
    simp only [hpath, FileTree.holds_write hwrite, FileTree.read_write hwrite,
      Pickle.toList_toByteArray, Pickle.decode?_encode h, Bool.not_true, Bool.false_eq_true,
      if_false]
  next => cases hsave

instance : KeepsSaved PickleFolder StoredArray.SmallShape where
  load_save := PickleFolder.load_save

instance : KeepsSaved ResultStore StoredArray.SmallShape where
  load_save {store after key array} h hsave := by
    cases store with
    | memory store =>
        obtain rfl : ResultStore.memory (store.insert key array) = after := Except.ok.inj hsave
        exact KeepsSaved.load_save (σ := MemoryStore Float) trivial rfl
    | folder store =>
        have hmap : ResultStore.folder <$> store.save key array = .ok after := hsave
        rcases hfolder : store.save key array with cause | written
        · rw [hfolder] at hmap
          cases hmap
        · rw [hfolder] at hmap
          cases hmap
          exact PickleFolder.load_save h hfolder

end Moire
