import Mathlib
import DiscreteChoice.Format.Csv

/-!
# Comma-separated tables that are read back

A table that was written is split into the rows that it was written from, whatever its fields hold:
commas, quotes and line ends are between quotes, and a character that is none of them has no byte
that looks like one.

Main results:

- Theorem `Text.toNat_of_mem_utf8EncodeChar`: a low byte in a text is a character of its own.
- Theorem `foldl_step_writeField`: a field is read up to the byte behind it.
- Theorem `foldl_step_writeRow`: a line is read as the row that it was written from.
- Theorem `split_bytes_of_write`: a table is split into the rows that it was written from.
- Theorem `length_of_mem_rows`: the rows that are read are as long as the header.
-/

namespace DiscreteChoice

/-! ## Bytes of texts -/

namespace Text

/-- The bytes of an array from a position on are listed behind those that were listed before. -/
theorem toList_loop_eq (bytes : ByteArray) (position : Nat) (behind : List UInt8) :
    ByteArray.toList.loop bytes position behind =
      behind.reverse ++ bytes.data.toList.drop position := by
  fun_induction ByteArray.toList.loop bytes position behind with
  | case1 position behind h ih =>
    have hposition : position < bytes.data.toList.length := h
    rw [ih, List.drop_eq_getElem_cons hposition]
    simp [ByteArray.get!, h]
  | case2 position behind h =>
    have hposition : bytes.data.toList.length ≤ position := Nat.le_of_not_lt h
    rw [List.drop_eq_nil_of_le hposition, List.append_nil]

/-- The bytes of a text. -/
def bytes (s : String) : List UInt8 :=
  s.toUTF8.toList

/-- The bytes of a text are those of its characters. -/
theorem bytes_eq (s : String) : bytes s = s.toList.flatMap String.utf8EncodeChar := by
  have hbytes : s.toUTF8 = s.toList.utf8Encode := by
    rw [String.toUTF8_eq_toByteArray, String.utf8Encode_toList]
  rw [bytes, hbytes, ByteArray.toList, toList_loop_eq, List.utf8Encode, List.data_toByteArray]
  simp

@[simp] theorem bytes_append (s t : String) : bytes (s ++ t) = bytes s ++ bytes t := by
  rw [bytes_eq, bytes_eq, bytes_eq, String.toList_append, List.flatMap_append]

@[simp] theorem bytes_empty : bytes "" = [] := by
  rw [bytes_eq]
  rfl

theorem bytes_eq_nil {s : String} : bytes s = [] ↔ s = "" := by
  rw [bytes_eq, List.flatMap_eq_nil_iff]
  constructor
  · intro h
    rw [← String.toList_eq_nil_iff, List.eq_nil_iff_forall_not_mem]
    exact fun c hc => String.utf8EncodeChar_ne_nil (h c hc)
  · rintro rfl
    simp

/-- A low byte in a text is a character of its own: all bytes of a character that has several of
them have the highest bit. -/
theorem toNat_of_mem_utf8EncodeChar {c : Char} {b : UInt8} (h : b ∈ String.utf8EncodeChar c)
    (hlow : b.toNat < 128) : c.toNat = b.toNat := by
  have hhigh (x mask : UInt8) (hmask : 128 ≤ mask.toNat) : ¬(x ||| mask).toNat < 128 := by
    rw [UInt8.toNat_or]
    exact Nat.not_lt_of_le (hmask.trans Nat.right_le_or)
  rcases c.utf8Size_eq with hsize | hsize | hsize | hsize
  · have hchar : c.toNat ≤ 127 := UInt32.le_iff_toNat_le.mp (Char.utf8Size_eq_one_iff.mp hsize)
    rw [String.utf8EncodeChar_eq_singleton hsize, List.mem_singleton] at h
    rw [h, UInt32.toNat_toUInt8]
    exact (Nat.mod_eq_of_lt (by omega)).symm
  · rw [String.utf8EncodeChar_eq_cons_cons hsize] at h
    simp only [List.mem_cons, List.not_mem_nil, or_false] at h
    rcases h with rfl | rfl <;> exact absurd hlow (hhigh _ _ (by decide))
  · rw [String.utf8EncodeChar_eq_cons_cons_cons hsize] at h
    simp only [List.mem_cons, List.not_mem_nil, or_false] at h
    rcases h with rfl | rfl | rfl <;> exact absurd hlow (hhigh _ _ (by decide))
  · rw [String.utf8EncodeChar_eq_cons_cons_cons_cons hsize] at h
    simp only [List.mem_cons, List.not_mem_nil, or_false] at h
    rcases h with rfl | rfl | rfl | rfl <;> exact absurd hlow (hhigh _ _ (by decide))

/-- A byte that is a character stands for this character wherever it occurs. -/
theorem eq_of_mem_utf8EncodeChar {c : Char} (mark : Char) {b : UInt8}
    (h : b ∈ String.utf8EncodeChar c) (hmark : mark.toNat = b.toNat) (hlow : b.toNat < 128) :
    c = mark :=
  Char.toNat_inj.mp ((toNat_of_mem_utf8EncodeChar h hlow).trans hmark.symm)

end Text

namespace Csv

open Text (bytes bytes_eq bytes_append eq_of_mem_utf8EncodeChar)

/-! ## Fields -/

/-- Whether a byte can end a field or change how it is read. -/
def isMark (b : UInt8) : Bool :=
  b = 0x2c || b = 0x22 || isLineEnd b

/-- A character that needs no quotes has no byte that looks like a mark. -/
theorem isMark_of_mem_utf8EncodeChar {c : Char} {b : UInt8} (hc : needsQuotes c = false)
    (hb : b ∈ String.utf8EncodeChar c) : isMark b = false := by
  rw [Bool.eq_false_iff]
  intro hmark
  have hbyte : b = 0x2c ∨ b = 0x22 ∨ b = 0x0a ∨ b = 0x0d := by
    simpa [isMark, isLineEnd, or_assoc] using hmark
  rcases hbyte with rfl | rfl | rfl | rfl
  · rw [eq_of_mem_utf8EncodeChar ',' hb rfl (by decide)] at hc
    exact absurd hc (by decide)
  · rw [eq_of_mem_utf8EncodeChar '"' hb rfl (by decide)] at hc
    exact absurd hc (by decide)
  · rw [eq_of_mem_utf8EncodeChar '\n' hb rfl (by decide)] at hc
    exact absurd hc (by decide)
  · rw [eq_of_mem_utf8EncodeChar '\r' hb rfl (by decide)] at hc
    exact absurd hc (by decide)

variable {s : Splitting}

/-- Outside of quotes a byte that is no mark is added to the field. -/
theorem step_of_not_isMark {b : UInt8} (hb : isMark b = false)
    (hplace : s.place = .rowStart ∨ s.place = .fieldStart ∨ s.place = .bare) :
    s.step b = s.append b .bare := by
  simp only [isMark, Bool.or_eq_false_iff, decide_eq_false_iff_not] at hb
  rcases hb with ⟨⟨hcomma, hquote⟩, hline⟩
  rcases hplace with hplace | hplace | hplace <;>
    simp [Splitting.step, hplace, Splitting.plain, hcomma, hquote, hline]

/-- Bytes that are added one by one are added in their order. -/
theorem foldl_step_append {place : Place} {bs : List UInt8}
    (hstep : ∀ b ∈ bs, ∀ t : Splitting, t.place = place → t.step b = t.append b place)
    (hplace : s.place = place) :
    bs.foldl Splitting.step s = { s with field := bs.reverse ++ s.field } := by
  induction bs generalizing s with
  | nil => rfl
  | cons b bs ih =>
    rw [List.foldl_cons, hstep b List.mem_cons_self s hplace,
      ih (fun b hb => hstep b (List.mem_cons_of_mem _ hb)) rfl]
    simp [Splitting.append, hplace]

/-- Between quotes all characters are added, a quote that is written twice once. -/
theorem foldl_step_quoted (cs : List Char) (hplace : s.place = .quoted) :
    ((doubleQuotes cs).flatMap String.utf8EncodeChar).foldl Splitting.step s =
      { s with field := (cs.flatMap String.utf8EncodeChar).reverse ++ s.field } := by
  induction cs generalizing s with
  | nil => rfl
  | cons c cs ih =>
    by_cases hc : c = '"'
    · subst hc
      have hquote : String.utf8EncodeChar '"' = [0x22] := by decide
      have hfirst : s.step 0x22 = { s with place := .quoteSeen } := by
        simp [Splitting.step, hplace]
      have hsecond : Splitting.step { s with place := .quoteSeen } 0x22 = s.append 0x22 .quoted := by
        simp [Splitting.step, Splitting.append]
      rw [doubleQuotes, if_pos rfl, List.flatMap_cons, List.flatMap_cons, hquote,
        List.singleton_append, List.singleton_append, List.foldl_cons, List.foldl_cons, hfirst,
        hsecond, ih rfl]
      simp [Splitting.append, hplace, hquote]
    · have hstep : ∀ b ∈ String.utf8EncodeChar c, ∀ t : Splitting, t.place = .quoted →
          t.step b = t.append b .quoted := by
        intro b hb t ht
        have hquote : b ≠ 0x22 := by
          rintro rfl
          exact hc (eq_of_mem_utf8EncodeChar '"' hb rfl (by decide))
        simp [Splitting.step, ht, hquote]
      rw [doubleQuotes, if_neg hc, List.flatMap_cons, List.foldl_append,
        foldl_step_append hstep hplace, ih]
      · simp
      · exact hplace

/-- A field is read up to the byte behind it. It can leave no trace of its own only where it is
empty, at the start of a row. -/
theorem foldl_step_writeField (hplace : s.place = .rowStart ∨ s.place = .fieldStart)
    (hfield : s.field = []) (f : String) :
    ∃ place, place ≠ .quoted ∧ (place = .rowStart → f = "" ∧ s.place = .rowStart) ∧
      (bytes (writeField f)).foldl Splitting.step s =
        { s with place := place, field := (bytes f).reverse } := by
  by_cases hquotes : f.toList.any needsQuotes = true
  · have hopen : s.step 0x22 = { s with place := .quoted } := by
      rcases hplace with hplace | hplace <;> simp [Splitting.step, hplace, isLineEnd]
    have hbytes : bytes (writeField f) =
        0x22 :: ((doubleQuotes f.toList).flatMap String.utf8EncodeChar ++ [0x22]) := by
      have hquote : String.utf8EncodeChar '"' = [0x22] := by decide
      rw [writeField, if_pos hquotes, bytes_eq]
      simp [hquote]
    refine ⟨.quoteSeen, nofun, nofun, ?_⟩
    rw [hbytes, List.foldl_cons, hopen, List.foldl_append, foldl_step_quoted _ rfl, bytes_eq]
    simp [Splitting.step, hfield]
  · have hplain : ∀ b ∈ bytes f, isMark b = false := by
      intro b hb
      rw [bytes_eq, List.mem_flatMap] at hb
      rcases hb with ⟨c, hc, hb⟩
      have hneeds : needsQuotes c = false := by
        rw [Bool.eq_false_iff]
        exact fun h => hquotes (List.any_eq_true.mpr ⟨c, hc, h⟩)
      exact isMark_of_mem_utf8EncodeChar hneeds hb
    rw [writeField, if_neg hquotes]
    cases hbytes : bytes f with
    | nil =>
      refine ⟨s.place, ?_, fun hrow => ⟨?_, hrow⟩, ?_⟩
      · rcases hplace with hplace | hplace <;> simp [hplace]
      · exact Text.bytes_eq_nil.mp hbytes
      · rw [List.foldl_nil, List.reverse_nil, ← hfield]
    | cons b bs =>
      rw [hbytes] at hplain
      have hfirst : s.step b = s.append b .bare :=
        step_of_not_isMark (hplain b List.mem_cons_self)
          (hplace.imp id .inl)
      have hothers : ∀ b ∈ bs, ∀ t : Splitting, t.place = .bare → t.step b = t.append b .bare :=
        fun b hb t ht => step_of_not_isMark (hplain b (List.mem_cons_of_mem _ hb)) (.inr (.inr ht))
      refine ⟨.bare, nofun, nofun, ?_⟩
      rw [List.foldl_cons, hfirst, foldl_step_append hothers rfl]
      simp [Splitting.append, hfield]

/-! ## Rows -/

/-- A comma outside of quotes ends the field. -/
theorem step_comma (hplace : s.place ≠ .quoted) : s.step 0x2c = s.endField := by
  cases h : s.place <;> simp [Splitting.step, h, Splitting.plain, isLineEnd] at hplace ⊢

/-- A line feed outside of quotes ends the row, unless there is none. -/
theorem step_lineFeed (hplace : s.place ≠ .quoted) (hrow : s.place ≠ .rowStart) :
    s.step 0x0a = s.endRow := by
  cases h : s.place <;> simp [Splitting.step, h, Splitting.plain, isLineEnd] at hplace hrow ⊢

/-- Fields with commas between them are read as one row. -/
theorem foldl_step_intercalate {fields : List String} (hfields : fields ≠ [])
    (hplace : s.place = .rowStart ∨ s.place = .fieldStart) (hfield : s.field = [])
    (hempty : s.place = .rowStart → fields ≠ [""]) :
    (bytes (String.intercalate "," (fields.map writeField) ++ "\n")).foldl Splitting.step s =
      ⟨.rowStart, [], [], (s.row.reverse ++ fields.map bytes) :: s.rows⟩ := by
  have hcomma : bytes "," = [0x2c] := by rw [bytes_eq]; decide
  have hlineFeed : bytes "\n" = [0x0a] := by rw [bytes_eq]; decide
  induction fields generalizing s with
  | nil => exact absurd rfl hfields
  | cons f fields ih =>
    rcases foldl_step_writeField hplace hfield f with ⟨place, hquoted, hstart, hread⟩
    cases fields with
    | nil =>
      have hrow : place ≠ .rowStart := fun h => hempty (hstart h).2 (by rw [(hstart h).1])
      rw [List.map_singleton, String.intercalate_singleton, bytes_append, List.foldl_append, hread,
        hlineFeed, List.foldl_cons, List.foldl_nil, step_lineFeed hquoted hrow]
      simp [Splitting.endRow]
    | cons g fields =>
      rw [List.map_cons, List.map_cons, String.intercalate_cons_cons, String.append_assoc,
        String.append_assoc, bytes_append, List.foldl_append, hread, bytes_append, hcomma,
        List.foldl_append, List.foldl_cons, List.foldl_nil, step_comma hquoted, ← List.map_cons,
        ih (by simp)]
      · simp [Splitting.endField]
      · exact .inr rfl
      · rfl
      · exact nofun

/-- A line is read as the row that it was written from. -/
theorem foldl_step_writeRow {fields : List String} (hfields : fields ≠ [])
    (rows : List (List (List UInt8))) :
    (bytes (writeRow fields)).foldl Splitting.step ⟨.rowStart, [], [], rows⟩ =
      ⟨.rowStart, [], [], fields.map bytes :: rows⟩ := by
  by_cases hempty : fields = [""]
  · subst hempty
    have hbytes : bytes (writeRow [""]) = [0x22, 0x22, 0x0a] := by
      rw [bytes_eq]
      decide
    rw [hbytes, List.map_singleton, Text.bytes_empty]
    rfl
  · have hline : writeRow fields = String.intercalate "," (fields.map writeField) ++ "\n" := by
      rw [writeRow]
      simpa using hempty
    rw [hline]
    exact foldl_step_intercalate hfields (.inl rfl) rfl fun _ => hempty

/-! ## Tables -/

/-- The lines of rows are read as these rows. -/
theorem foldl_step_join {table : List (List String)} (htable : ∀ row ∈ table, row ≠ [])
    (rows : List (List (List UInt8))) :
    (bytes (String.join (table.map writeRow))).foldl Splitting.step ⟨.rowStart, [], [], rows⟩ =
      ⟨.rowStart, [], [], (table.map (·.map bytes)).reverse ++ rows⟩ := by
  induction table generalizing rows with
  | nil => simp
  | cons row table ih =>
    rw [List.map_cons, String.join_cons, bytes_append, List.foldl_append,
      foldl_step_writeRow (htable row List.mem_cons_self),
      ih fun other hother => htable other (List.mem_cons_of_mem _ hother)]
    simp

/-- The text of a table is that of its rows. -/
theorem eq_join_of_write {table : List (List String)} {text : String}
    (h : write table = .ok text) : text = String.join (table.map writeRow) := by
  cases table with
  | nil => simpa [write] using h.symm
  | cons first others =>
    rw [write] at h
    split at h
    · exact (Except.ok.inj h).symm
    · exact absurd h nofun

/-- A table starts as its first field does, unless that is empty or between quotes. -/
theorem head?_bytes_of_write {f : String} {fields : List String} {table : List (List String)}
    {text : String} (hwrite : write ((f :: fields) :: table) = .ok text) (hempty : f ≠ "")
    (hplain : f.toList.any needsQuotes = false) : (bytes text).head? = (bytes f).head? := by
  have hfield : writeField f = f := by rw [writeField, if_neg (by simp [hplain])]
  have hrow : ∃ rest, writeRow (f :: fields) = f ++ rest := by
    have hline : writeRow (f :: fields) =
        String.intercalate "," ((f :: fields).map writeField) ++ "\n" := by
      rw [writeRow]
      simp [hempty]
    cases fields with
    | nil => exact ⟨"\n", by rw [hline, List.map_singleton, String.intercalate_singleton, hfield]⟩
    | cons g fields =>
      rw [hline, List.map_cons, List.map_cons, String.intercalate_cons_cons, hfield,
        String.append_assoc, String.append_assoc]
      exact ⟨_, rfl⟩
  rcases hrow with ⟨rest, hrest⟩
  have hbytes : bytes f ≠ [] := fun h => hempty (Text.bytes_eq_nil.mp h)
  rw [eq_join_of_write hwrite, List.map_cons, String.join_cons, hrest, String.append_assoc,
    bytes_append, List.head?_append_of_ne_nil _ hbytes]

/-- A table that was written is split into the rows that it was written from, when it does not start
with a byte of a byte order mark. -/
theorem split_bytes_of_write {table : List (List String)} {text : String}
    (hwrite : write table = .ok text) (htable : ∀ row ∈ table, row ≠ [])
    (hmark : (bytes text).head? ≠ some 0xef) :
    split (bytes text) = table.map (·.map bytes) := by
  have hskip : skipMark (bytes text) = bytes text := by
    rw [skipMark]
    intro rest hrest
    exact hmark (by rw [hrest]; rfl)
  rw [split, hskip, eq_join_of_write hwrite, Splitting.start, foldl_step_join htable,
    Splitting.finish]
  simp

/-! ## Reading -/

/-- A row has one text for each of its fields. -/
theorem length_of_rowTexts {row : List (List UInt8)} {texts : List String}
    (h : rowTexts row = .ok texts) : texts.length = row.length := by
  have htexts : row.mapM fieldText? = some texts := by
    rw [rowTexts] at h
    cases hmap : row.mapM fieldText? with
    | none => simp [hmap] at h
    | some found =>
      rw [hmap] at h
      rw [Except.ok.inj h]
  clear h
  induction row generalizing texts with
  | nil =>
    rcases Option.some.inj htexts with rfl
    rfl
  | cons field row ih =>
    rw [List.mapM_cons] at htexts
    rcases Option.bind_eq_some_iff.mp htexts with ⟨text, -, hrest⟩
    rcases Option.bind_eq_some_iff.mp hrest with ⟨others, hothers, htext⟩
    rcases Option.some.inj htext with rfl
    rw [List.length_cons, List.length_cons, ih hothers]

/-- The rows of a table are as long as its header. -/
theorem length_of_mem_rows {input : List UInt8} {header cells : List String}
    (hheader : (read input).header = .ok header) (hcells : .ok cells ∈ (read input).rows) :
    cells.length = header.length := by
  unfold read at hheader hcells
  cases hsplit : split input with
  | nil => simp [hsplit] at hcells
  | cons first others =>
    simp only [hsplit, List.mem_map] at hheader hcells
    rcases hcells with ⟨row, -, hrow⟩
    split_ifs at hrow with hlength
    rw [length_of_rowTexts hrow, length_of_rowTexts hheader, hlength]

end Csv
end DiscreteChoice
