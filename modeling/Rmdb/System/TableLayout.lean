import Rmdb.System.Ddl

/-!
# Record layouts

The columns of a table as the grammar gives them (`field` and `type` of `parser/yacc.y`,
`Planner::do_planner`) and where `SmManager::create_table` puts them.  The length of a CHAR column
is the literal of the statement, of either sign; the offsets are sums of `int`s, and only the last
sum is checked.
-/

namespace Rmdb

/-- `type`: the type and the length of a column. -/
inductive FieldType
  | int
  | bigint
  | char (n : Int32)
  | float
  | datetime
deriving DecidableEq, Repr

def FieldType.colType : FieldType → ColType
  | int => .int
  | bigint => .bigint
  | char _ => .string
  | float => .float
  | datetime => .datetime

def FieldType.len : FieldType → ℤ
  | int => 4
  | bigint => 8
  | char n => n.toInt
  | float => 4
  | datetime => 8

/-- `field`. -/
structure Field where
  name : String
  type : FieldType
deriving DecidableEq, Repr

/-- The column definition that `do_planner` makes of a field. -/
def Field.colDef (f : Field) : ColDef := ⟨f.name, f.type.colType, f.type.len⟩

/-- The byte is one of the column. -/
def ColEntry.Holds (col : ColEntry) (i : ℤ) : Prop := col.offset ≤ i ∧ i < col.offset + col.len

/-- The columns have their own names, and share out the bytes of a record. -/
structure SoundLayout (cols : List ColEntry) (recordSize : ℤ) : Prop where
  names : (cols.map ColEntry.name).Nodup
  len : ∀ col ∈ cols, 1 ≤ col.len
  disjoint : cols.Pairwise fun c d => ∀ i, ¬ (c.Holds i ∧ d.Holds i)
  cover : ∀ i, (∃ col ∈ cols, col.Holds i) ↔ 0 ≤ i ∧ i < recordSize
  size : 1 ≤ recordSize ∧ recordSize ≤ RM_MAX_RECORD_SIZE
  inside : ∀ col ∈ cols, 0 ≤ col.offset ∧ col.offset + col.len ≤ recordSize

/-- The names are different, no CHAR column is shorter than 1, and the sum of the lengths is an
`int`. -/
structure PlainFields (fields : List Field) : Prop where
  names : (fields.map Field.name).Nodup
  char : ∀ f ∈ fields, ∀ n, f.type = .char n → 1 ≤ n.toInt
  sum : (fields.map fun f => f.type.len).sum < 2 ^ 31

/-! ## Offsets -/

section Offsets
variable {tabName : String} {offset : ℤ} {cs : List ColDef}

/-- The sum of the lengths of columns. -/
def totalLen (cs : List ColDef) : ℤ := (cs.map ColDef.len).sum

theorem totalLen_nonneg (h : ∀ c ∈ cs, 1 ≤ c.len) : 0 ≤ totalLen cs := by
  induction cs with
  | nil => exact le_refl _
  | cons c cs ih =>
    obtain ⟨hc, hcs⟩ := List.forall_mem_cons.mp h
    have := ih hcs
    rw [totalLen, List.map_cons, List.sum_cons]
    rw [totalLen] at this
    omega

/-- Without an overflow, the columns share out the bytes from the first offset on. -/
theorem layOut_sound (tabName : String) (hlen : ∀ c ∈ cs, 1 ≤ c.len) (hoffset : 0 ≤ offset)
    (hsum : offset + totalLen cs < 2 ^ 31) :
    (∀ i, (∃ col ∈ layOut tabName offset cs, col.Holds i) ↔ offset ≤ i ∧ i < offset + totalLen cs) ∧
      (layOut tabName offset cs).Pairwise (fun c d => ∀ i, ¬ (c.Holds i ∧ d.Holds i)) ∧
      (∀ col ∈ layOut tabName offset cs, offset ≤ col.offset ∧
        col.offset + col.len ≤ offset + totalLen cs) ∧
      cs.foldl (fun offset c => intAdd offset c.len) offset = offset + totalLen cs := by
  induction cs generalizing offset with
  | nil => simp [layOut, totalLen]
  | cons c cs ih =>
    obtain ⟨hc, hcs⟩ := List.forall_mem_cons.mp hlen
    have hrest := totalLen_nonneg hcs
    have htotal : totalLen (c :: cs) = c.len + totalLen cs := by
      rw [totalLen, List.map_cons, List.sum_cons, totalLen]
    rw [htotal] at hsum ⊢
    have hadd : intAdd offset c.len = offset + c.len := intAdd_eq (by omega) (by omega)
    obtain ⟨hcover, hdisjoint, hinside, hend⟩ :=
      ih hcs (show 0 ≤ offset + c.len by omega) (by omega)
    rw [layOut, List.foldl_cons, hadd]
    refine ⟨fun i => ?_, List.pairwise_cons.mpr ⟨fun d hd i hboth => ?_, hdisjoint⟩,
      fun col hcol => ?_, ?_⟩
    · rw [List.exists_mem_cons_iff, hcover]
      simp only [ColEntry.Holds]
      omega
    · have := hinside d hd
      simp only [ColEntry.Holds] at hboth
      omega
    · rcases List.mem_cons.mp hcol with rfl | hcol
      · refine ⟨le_refl _, ?_⟩
        show offset + c.len ≤ _
        omega
      · have := hinside col hcol
        omega
    · rw [hend]
      omega

/-- Columns that lie within a record of the size of a page do not make the sums overflow. -/
theorem totalLen_le_of_inside {size : ℤ} (hlen : ∀ c ∈ cs, 1 ≤ c.len) (hoffset : 0 ≤ offset)
    (hle : offset ≤ size)
    (hsize : size < 2 ^ 31) (h : ∀ col ∈ layOut tabName offset cs, col.offset + col.len ≤ size) :
    offset + totalLen cs ≤ size := by
  induction cs generalizing offset with
  | nil => simpa [totalLen] using hle
  | cons c cs ih =>
    obtain ⟨hc, hcs⟩ := List.forall_mem_cons.mp hlen
    rw [layOut] at h
    obtain ⟨hfirst, hrest⟩ := List.forall_mem_cons.mp h
    have hfirst : offset + c.len ≤ size := hfirst
    have hadd : intAdd offset c.len = offset + c.len := intAdd_eq (by omega) (by omega)
    rw [hadd] at hrest
    have := ih hcs (by omega) hfirst hrest
    rw [totalLen, List.map_cons, List.sum_cons]
    rw [totalLen] at this
    omega

theorem map_len_layOut (tabName : String) (offset : ℤ) (cs : List ColDef) :
    (layOut tabName offset cs).map ColEntry.len = cs.map ColDef.len := by
  induction cs generalizing offset with
  | nil => rfl
  | cons c cs ih => rw [layOut, List.map_cons, List.map_cons, ih]

end Offsets

/-! ## Accepted tables -/

section Accepted
variable {s s' : SmManager} {tabName : String} {fields : List Field} {os : OsAnswer}

/-- What a call of `create_table` that returns has checked, and the table that it enters. -/
theorem createTable_accepted {colDefs : List ColDef}
    (h : s.createTable tabName colDefs os = .ok s') :
    (1 ≤ recordSizeOf colDefs ∧ recordSizeOf colDefs ≤ RM_MAX_RECORD_SIZE) ∧
      s'.db.getTable tabName = .ok ⟨tabName, layOut tabName 0 colDefs, []⟩ := by
  have hget (db : DbMeta) (tab : TabEntry) : (db.setTable tab).getTable tab.name = .ok tab :=
    DbMeta.getTable_eq SortedMap.find_put
  by_cases htable : s.db.isTable tabName = true
  · simp [SmManager.createTable, htable, bind, Except.bind, throw, throwThe,
      MonadExceptOf.throw] at h
  cases hcreate : s.disk.createTableFile tabName (recordSizeOf colDefs) os with
  | error e =>
    simp [SmManager.createTable, htable, hcreate, SmManager.diskCall, Except.mapError, bind,
      Except.bind] at h
  | ok d =>
    have hsize : 1 ≤ recordSizeOf colDefs ∧ recordSizeOf colDefs ≤ RM_MAX_RECORD_SIZE := by
      by_contra hsize
      rw [Directory.createTableFile, if_pos (by omega)] at hcreate
      cases hcreate
    refine ⟨hsize, ?_⟩
    cases hopen : d.openFile tabName os.fd' os.opens' with
    | error e =>
      simp [SmManager.createTable, htable, hcreate, hopen, SmManager.diskCall,
        Except.mapError, bind, Except.bind] at h
    | ok r =>
      simp [SmManager.createTable, htable, hcreate, hopen, SmManager.diskCall,
        Except.mapError, bind, Except.bind, pure, Except.pure] at h
      subst h
      exact hget s.db ⟨tabName, layOut tabName 0 colDefs, []⟩

theorem totalLen_colDef (fields : List Field) :
    totalLen (fields.map Field.colDef) = (fields.map fun f => f.type.len).sum := by
  rw [totalLen, List.map_map]
  rfl

/-- A column other than a CHAR column has a fixed length. -/
theorem FieldType.one_le_len {type : FieldType} (h : ∀ n, type = .char n → 1 ≤ n.toInt) :
    1 ≤ type.len := by
  cases type with
  | char n => exact h n rfl
  | int => decide
  | bigint => decide
  | float => decide
  | datetime => decide

/-- The layout of an accepted table is sound exactly if the fields are plain. -/
theorem accepted_layout_sound_iff
    (h : s.createTable tabName (fields.map Field.colDef) os = .ok s') :
    (∃ tab, s'.db.getTable tabName = .ok tab ∧
      SoundLayout tab.cols (recordSizeOf (fields.map Field.colDef))) ↔ PlainFields fields := by
  obtain ⟨hsize, hget⟩ := createTable_accepted h
  have hnames : (layOut tabName 0 (fields.map Field.colDef)).map ColEntry.name =
      fields.map Field.name := by
    rw [map_name_layOut, List.map_map]
    rfl
  have hmax : (RM_MAX_RECORD_SIZE : ℤ) < 2 ^ 31 := by decide
  constructor
  · rintro ⟨tab, htab, hsound⟩
    obtain rfl : tab = ⟨tabName, layOut tabName 0 (fields.map Field.colDef), []⟩ :=
      Except.ok.inj (htab.symm.trans hget)
    have hlen : ∀ c ∈ fields.map Field.colDef, 1 ≤ c.len := by
      intro c hc
      have hmem : c.len ∈ (layOut tabName 0 (fields.map Field.colDef)).map ColEntry.len := by
        rw [map_len_layOut]
        exact List.mem_map_of_mem hc
      obtain ⟨col, hcol, hcolLen⟩ := List.mem_map.mp hmem
      rw [← hcolLen]
      exact hsound.len col hcol
    have hsum := totalLen_le_of_inside hlen (le_refl 0) (by omega) (by omega) fun col hcol =>
      (hsound.inside col hcol).2
    rw [totalLen_colDef] at hsum
    refine ⟨hnames ▸ hsound.names, fun f hf n htype => ?_, by omega⟩
    have := hlen f.colDef (List.mem_map_of_mem hf)
    rw [Field.colDef, htype] at this
    exact this
  · rintro ⟨hnodup, hchar, hsum⟩
    have hlen : ∀ c ∈ fields.map Field.colDef, 1 ≤ c.len := by
      intro c hc
      obtain ⟨f, hf, rfl⟩ := List.mem_map.mp hc
      exact FieldType.one_le_len (hchar f hf)
    rw [← totalLen_colDef] at hsum
    obtain ⟨hcover, hdisjoint, hinside, hend⟩ := layOut_sound tabName hlen (le_refl 0) (by omega)
    simp only [zero_add] at hcover hinside hend
    refine ⟨_, hget, hnames.symm ▸ hnodup, fun col hcol => ?_, hdisjoint, ?_, hsize, ?_⟩
    · have hmem : col.len ∈ (fields.map Field.colDef).map ColDef.len := by
        rw [← map_len_layOut tabName 0]
        exact List.mem_map_of_mem hcol
      obtain ⟨c, hc, hcLen⟩ := List.mem_map.mp hmem
      rw [← hcLen]
      exact hlen c hc
    · rw [recordSizeOf, hend]
      exact hcover
    · rw [recordSizeOf, hend]
      exact hinside

/-- A database without tables. -/
def noTables : SmManager :=
  ⟨⟨"db", []⟩, fun _ => none, fun _ => none, ⟨∅, fun _ => none, fun _ => none⟩, []⟩

theorem accepted_layout_sound_two : ∃ s', noTables.createTable "t"
    ([⟨"a", .int⟩, ⟨"b", .char 8⟩].map Field.colDef) (.grant 3 3) = .ok s' ∧
    ∃ tab, s'.db.getTable "t" = .ok tab ∧
      SoundLayout tab.cols (recordSizeOf ([⟨"a", .int⟩, ⟨"b", .char 8⟩].map Field.colDef)) := by
  obtain ⟨s', hcreate, -⟩ := exists_ok_of_any (x := noTables.createTable "t"
    ([⟨"a", .int⟩, ⟨"b", .char 8⟩].map Field.colDef) (.grant 3 3)) (p := fun _ => true)
      (by decide +kernel)
  refine ⟨s', hcreate, (accepted_layout_sound_iff hcreate).mpr ⟨by decide, ?_, by decide⟩⟩
  intro f hf n htype
  simp only [List.mem_cons, List.not_mem_nil, or_false] at hf
  rcases hf with rfl | rfl
  · cases htype
  · cases htype
    decide

/-- `CREATE TABLE t (a CHAR(-1), b INT)` is accepted, with `b` at the offset -1. -/
theorem not_accepted_layout_sound :
    ¬ ∀ (s s' : SmManager) (tabName : String) (fields : List Field) (os : OsAnswer),
    s.createTable tabName (fields.map Field.colDef) os = .ok s' →
      ∃ tab, s'.db.getTable tabName = .ok tab ∧
        SoundLayout tab.cols (recordSizeOf (fields.map Field.colDef)) := by
  intro hall
  obtain ⟨s', hcreate, -⟩ := exists_ok_of_any (x := noTables.createTable "t"
    ([⟨"a", .char (-1)⟩, ⟨"b", .int⟩].map Field.colDef) (.grant 3 3)) (p := fun _ => true)
      (by decide +kernel)
  obtain ⟨tab, htab, hsound⟩ := hall noTables s' "t" _ (.grant 3 3) hcreate
  obtain rfl := Except.ok.inj (htab.symm.trans (createTable_accepted hcreate).2)
  have hlen := hsound.len ⟨"t", "a", .string, -1, 0, false⟩ (by decide)
  exact absurd hlen (by decide)

end Accepted

end Rmdb
