import Rmdb.Defs
import Rmdb.Lib.ByteFile

/-!
# File offsets

How `DiskManager` reaches a page or a place of the log (`storage/disk_manager.cpp`).  The offset of
a page and the size of a file are computed in 32 bits, and the result of `lseek` is not looked at:
after a failed one the transfer takes place wherever the file happens to stand.  `write` is taken to
write all bytes that it is given.
-/

namespace Rmdb

namespace Disk

/-- The exceptions of these functions, and the assertion of `read_log`. -/
inductive DiskError
  | internal (msg : String)
  | unix
  | assertion
deriving DecidableEq, Repr

/-- `LOG_BUFFER_SIZE`. -/
def LOG_BUFFER_SIZE : ℤ := 1024 * PAGE_SIZE

/-- `page_no * PAGE_SIZE`, a product of `int`s. -/
def pageOffset (pageNo : ℤ) : ℤ := (pageNo * PAGE_SIZE).bmod (2 ^ 32)

/-- `DiskManager::write_page`. -/
def writePage (f : ByteFile) (pageNo : ℤ) (data : Bytes) : Except DiskError ByteFile :=
  let (bytesWritten, f) := (f.lseek (pageOffset pageNo)).write data
  if bytesWritten ≠ data.length then .error (.internal "DiskManager::write_page Error") else .ok f

/-- `DiskManager::read_page`: the bytes, and the file. -/
def readPage (f : ByteFile) (pageNo : ℤ) (numBytes : ℕ) : Except DiskError Bytes × ByteFile :=
  let (data, f) := (f.lseek (pageOffset pageNo)).read numBytes
  if data.length ≠ numBytes then (.error (.internal "DiskManager::read_page Error"), f) else
    (.ok data, f)

/-- `DiskManager::get_file_size` of a file that is there. -/
def getFileSize (f : ByteFile) : ℤ := (f.content.length : ℤ).bmod (2 ^ 32)

/-- `DiskManager::read_log`: the number that it returns, and the bytes. -/
def readLog (f : ByteFile) (size offset : ℤ) : Except DiskError (ℤ × Bytes) :=
  let fileSize := getFileSize f
  if fileSize < offset then .ok (-1, [])
  else
    let size := min size ((fileSize - offset).bmod (2 ^ 32))
    if size = 0 then .ok (0, [])
    else
      let (data, _) := (f.lseek offset).read size.toNat
      if (data.length : ℤ) ≠ size then .error .assertion else .ok (data.length, data)

/-- `DiskManager::write_log`. -/
def writeLog (f : ByteFile) (data : Bytes) : Except DiskError ByteFile :=
  let (bytesWritten, f) := (f.lseek f.content.length).write data
  if bytesWritten ≠ data.length then .error .unix else .ok f

/-! ## What the callers rely on -/

/-- Two pages have offsets of their own, and a write to the one can be read back and leaves the
other. -/
structure PagesApart (p q : ℕ) : Prop where
  offset_written : pageOffset p = p * PAGE_SIZE
  offset_other : pageOffset q = q * PAGE_SIZE
  reads_back : ∀ (f : ByteFile) (data : Bytes), data.length ≤ PAGE_SIZE →
    ∃ f', writePage f p data = .ok f' ∧ (readPage f' p data.length).1 = .ok data
  unaffected : ∀ (f f' : ByteFile) (data old : Bytes) (n : ℕ), data.length ≤ PAGE_SIZE →
    n ≤ PAGE_SIZE →
    writePage f p data = .ok f' → (readPage f q n).1 = .ok old → (readPage f' q n).1 = .ok old

/-- The log is read as long as it is: at each offset what stands there, `-1` behind the end, and at
least one byte at the start of a log that has one. -/
structure LogSeen (f : ByteFile) : Prop where
  size : getFileSize f = f.content.length
  inside : ∀ size offset : ℕ, offset ≤ f.content.length →
    readLog f size offset = .ok (((f.content.drop offset).take size).length,
      (f.content.drop offset).take size)
  behind : ∀ size offset : ℕ, f.content.length < offset → readLog f size offset = .ok (-1, [])
  nonempty : f.content ≠ [] → ∃ n data, readLog f LOG_BUFFER_SIZE 0 = .ok (n, data) ∧ 0 < n

/-! ## Pages -/

section
variable {p q : ℕ} {f f' : ByteFile} {data old : Bytes} {n : ℕ}

theorem pageOffset_eq_iff (p : ℕ) : pageOffset p = p * PAGE_SIZE ↔ p < 2 ^ 19 := by
  rw [pageOffset, PAGE_SIZE, Int.bmod]
  omega

theorem lseek_page (h : p < 2 ^ 19) (f : ByteFile) :
    f.lseek (pageOffset p) = { f with pos := p * PAGE_SIZE } := by
  have hoff : pageOffset p = ((p * PAGE_SIZE : ℕ) : ℤ) := by
    rw [(pageOffset_eq_iff p).2 h]
    push_cast
    rfl
  rw [hoff, ByteFile.lseek_natCast]

theorem writePage_eq (h : p < 2 ^ 19) (f : ByteFile) (data : Bytes) :
    writePage f p data = .ok (({ f with pos := p * PAGE_SIZE } : ByteFile).write data).2 := by
  rw [writePage, lseek_page h]
  exact if_neg fun hne => hne rfl

/-- `read_page` returns just when there are enough bytes. -/
theorem readPage_ok_iff (h : q < 2 ^ 19) :
    (readPage f q n).1 = .ok old ↔
      (({ f with pos := q * PAGE_SIZE } : ByteFile).read n).1 = old ∧ old.length = n := by
  rw [readPage, lseek_page h]
  generalize hread : ({ f with pos := q * PAGE_SIZE } : ByteFile).read n = r
  by_cases hlen : r.1.length = n
  · simp only [ne_eq, hlen, not_true_eq_false, if_false, Except.ok.injEq]
    exact ⟨fun heq => ⟨heq, heq ▸ hlen⟩, fun heq => heq.1⟩
  · simp only [ne_eq, hlen, not_false_eq_true, if_true, reduceCtorEq, false_iff]
    rintro ⟨rfl, hold⟩
    exact hlen hold

theorem reads_back_of_lt (h : p < 2 ^ 19) (f : ByteFile) (data : Bytes) :
    ∃ f', writePage f p data = .ok f' ∧ (readPage f' p data.length).1 = .ok data := by
  refine ⟨_, writePage_eq h f data, (readPage_ok_iff h).2 ⟨?_, rfl⟩⟩
  exact ByteFile.read_write_self { f with pos := p * PAGE_SIZE } data

theorem unaffected_of_lt (hp : p < 2 ^ 19) (hq : q < 2 ^ 19) (hne : p ≠ q)
    (hdata : data.length ≤ PAGE_SIZE)
    (hn : n ≤ PAGE_SIZE) (hwrite : writePage f p data = .ok f')
    (hread : (readPage f q n).1 = .ok old) : (readPage f' q n).1 = .ok old := by
  rw [writePage_eq hp] at hwrite
  obtain rfl := Except.ok.inj hwrite
  obtain ⟨hold, hlen⟩ := (readPage_ok_iff hq).1 hread
  refine (readPage_ok_iff hq).2 ⟨?_, hlen⟩
  rw [← hold]
  rcases Nat.lt_or_gt_of_ne hne with hlt | hgt
  · have hpos : p * PAGE_SIZE + data.length ≤ q * PAGE_SIZE := by
      have := Nat.mul_le_mul_right PAGE_SIZE hlt
      rw [Nat.succ_mul] at this
      omega
    exact ByteFile.read_write_of_ge hpos
  · have hpos : q * PAGE_SIZE + n ≤ p * PAGE_SIZE := by
      have := Nat.mul_le_mul_right PAGE_SIZE hgt
      rw [Nat.succ_mul] at this
      omega
    cases n with
    | zero => rfl
    | succ n =>
      -- a read that gave all its bytes stopped before the end of the file
      have hlength : ((f.content.drop (q * PAGE_SIZE)).take (n + 1)).length = n + 1 :=
        (congrArg List.length hold).trans hlen
      rw [List.length_take, List.length_drop] at hlength
      exact ByteFile.read_write_of_le hpos (by simp only; omega)

theorem pagesApart_iff (hne : p ≠ q) : PagesApart p q ↔ p < 2 ^ 19 ∧ q < 2 ^ 19 := by
  constructor
  · intro h
    exact ⟨(pageOffset_eq_iff p).1 h.offset_written, (pageOffset_eq_iff q).1 h.offset_other⟩
  · rintro ⟨hp, hq⟩
    exact {
      offset_written := (pageOffset_eq_iff p).2 hp
      offset_other := (pageOffset_eq_iff q).2 hq
      reads_back := fun f data _ => reads_back_of_lt hp f data
      unaffected := fun _ _ _ _ _ hdata hn hwrite hread =>
        unaffected_of_lt hp hq hne hdata hn hwrite hread }

end

/-! ## The log -/

section
variable {f : ByteFile}

theorem getFileSize_eq_iff : getFileSize f = f.content.length ↔ f.content.length < 2 ^ 31 := by
  refine (bmod_eq_self_iff _).trans ?_
  omega

/-- `write_log` appends, so a log can grow to any length. -/
theorem writeLog_appends (f : ByteFile) (data : Bytes) :
    ∃ f', writeLog f data = .ok f' ∧ f'.content = f.content ++ data := by
  refine ⟨_, if_neg fun hne => hne rfl, ?_⟩
  rw [ByteFile.lseek_natCast]
  simp

theorem readLog_behind {offset : ℕ} (h : f.content.length < 2 ^ 31)
    (hoff : f.content.length < offset) (size : ℤ) : readLog f size offset = .ok (-1, []) := by
  rw [readLog, getFileSize_eq_iff.2 h]
  exact if_pos (by exact_mod_cast hoff)

theorem readLog_inside {offset : ℕ} (h : f.content.length < 2 ^ 31)
    (hoff : offset ≤ f.content.length) (size : ℕ) : readLog f size offset =
      .ok (((f.content.drop offset).take size).length, (f.content.drop offset).take size) := by
  have hrest : (((f.content.length : ℤ) - offset).bmod (2 ^ 32)) =
      ((f.content.length - offset : ℕ) : ℤ) := by
    rw [Int.bmod]
    omega
  have hmin : min (size : ℤ) ((f.content.length - offset : ℕ) : ℤ) =
      ((f.content.drop offset).take size).length := by
    rw [List.length_take, List.length_drop]
    omega
  simp only [readLog, getFileSize_eq_iff.2 h]
  rw [if_neg (by omega), hrest, hmin, ByteFile.lseek_natCast]
  split
  · next hzero =>
    have hnil : (f.content.drop offset).take size = [] :=
      List.length_eq_zero_iff.1 (by exact_mod_cast hzero)
    rw [hnil]
    rfl
  · have hread : (({ f with pos := offset } : ByteFile).read
        ((((f.content.drop offset).take size).length : ℤ)).toNat).1 =
          (f.content.drop offset).take size := by
      rw [Int.toNat_natCast, ByteFile.read, List.length_take]
      exact List.take_eq_take_iff.2 (by simp)
    rw [hread, if_neg fun hne => hne rfl]

theorem logSeen_iff : LogSeen f ↔ f.content.length < 2 ^ 31 := by
  constructor
  · exact fun h => getFileSize_eq_iff.1 h.size
  · intro h
    refine ⟨getFileSize_eq_iff.2 h, fun size offset hoff => readLog_inside h hoff size,
      fun size offset hoff => readLog_behind h hoff size, fun hne => ?_⟩
    have hread := readLog_inside h (Nat.zero_le f.content.length) (1024 * PAGE_SIZE)
    refine ⟨_, _, hread, ?_⟩
    have hpos : 0 < f.content.length := List.length_pos_iff.2 hne
    rw [List.drop_zero, List.length_take, PAGE_SIZE]
    omega

/-- Pages and the log are reached where they are just when their offsets stay below 2 GiB. -/
theorem offsets_exact_iff {p q : ℕ} (hne : p ≠ q) (log : ByteFile) :
    PagesApart p q ∧ LogSeen log ↔ p < 2 ^ 19 ∧ q < 2 ^ 19 ∧ log.content.length < 2 ^ 31 := by
  rw [pagesApart_iff hne, logSeen_iff, and_assoc]

theorem offsets_exact_small_file : PagesApart 3 5 ∧ LogSeen ⟨[1, 2, 3], 0⟩ :=
  (offsets_exact_iff (by decide) _).2 (by decide)

theorem getFileSize_twoGiB (f : ByteFile) (h : f.content.length = 2 ^ 31) :
    getFileSize f = -2 ^ 31 := by
  have hmod : ((2 ^ 31 : ℕ) : ℤ).bmod (2 ^ 32) = -2 ^ 31 := by decide
  exact (congrArg (fun n : ℕ => (n : ℤ).bmod (2 ^ 32)) h).trans hmod

/-- A log of 2 GiB is taken for an empty one. -/
theorem readLog_twoGiB (f : ByteFile) (h : f.content.length = 2 ^ 31) :
    readLog f LOG_BUFFER_SIZE 0 = .ok (-1, []) := by
  rw [readLog, getFileSize_twoGiB f h]
  exact if_pos (by omega)

/-- A write to page 2^19 lands on page 0 of a file that stands at its start, and a log of 2 GiB is
taken for an empty one. -/
theorem not_offsets_exact :
    (∃ f', writePage ⟨[1, 2, 3, 4], 0⟩ (2 ^ 19) [9, 9, 9, 9] = .ok f' ∧
      (readPage ⟨[1, 2, 3, 4], 0⟩ 0 4).1 = .ok [1, 2, 3, 4] ∧ (readPage f' 0 4).1 = .ok
      [9, 9, 9, 9]) ∧
    ¬ PagesApart (2 ^ 19) 0 ∧
    readLog ⟨List.replicate (2 ^ 31) 0, 0⟩ LOG_BUFFER_SIZE 0 = .ok (-1, []) := by
  refine ⟨⟨_, rfl, by decide, by decide⟩, ?_, readLog_twoGiB _ List.length_replicate⟩
  intro h
  exact absurd ((pageOffset_eq_iff _).1 h.offset_written) (by decide)

end

end Disk

end Rmdb
