import Rmdb.Recovery.LogBytes

/-!
# Reading the log

The loop at the start of `RecoveryManager::analyze` that reads the log file in chunks.  A chunk is
decoded up to its first incomplete record, with which the next chunk begins.  Whether a record is
complete is asked of its length, and the length is read as soon as the eight bytes before it are in
the chunk: a record that begins 8 to 11 bytes before the end of a full chunk has its length taken in
part from whatever stands behind the buffer.
-/

namespace Rmdb

/-- The state at the head of the inner loop: the memory from the start of `buffer_` on, the position
of the chunk in the file, its length, the position in the chunk, `logs_` and the keys of `att_`. -/
structure LogReader where
  buffer : Memory
  off : ℤ := 0
  len : ℤ := 0
  offset : ℤ := 0
  logs : List LogEntry := []
  att : List Int32 := []

/-- `DiskManager::read_log` into a buffer of the given size: the number of bytes, and the memory
afterwards.  Nothing is read from a negative position. -/
def readLog (file : Bytes) (size : ℕ) (offset : ℤ) (buffer : Memory) : Option (ℤ × Memory) :=
  if offset < 0 then none
  else if file.length < offset then some (-1, buffer)
  else
    let bytes := (file.drop offset.toNat).take size
    some (bytes.length, buffer.store 0 bytes)

/-- What a round of the loop ends in; `stuck` is a failed assertion or allocation. -/
inductive Round
  | again (s : LogReader)
  | done (logs : List LogEntry)
  | stuck

namespace LogReader

/-- The end of the inner loop and the next chunk. -/
def nextChunk (file : Bytes) (size : ℕ) (s : LogReader) : Round :=
  match readLog file size (s.off + s.offset) s.buffer with
  | none => .stuck
  | some (len, buffer) =>
    if len ≤ 0 then .done s.logs
    else .again { s with buffer := buffer, off := s.off + s.offset, len := len, offset := 0 }

/-- A record of the given type; all but BEGIN records assert that the transaction is known. -/
def decode (s : LogReader) (t : LogType) : Round :=
  match LogEntry.deserialize s.buffer s.offset t with
  | none => .stuck
  | some e =>
    if t = .begin ∨ e.logTid ∈ s.att then
      .again { s with
        offset := intAdd s.offset e.logTotLen.toInt32.toInt
        logs := s.logs ++ [e]
        att := e.logTid :: s.att }
    else .stuck

/-- A round of the inner loop; an unknown type ends `analyze`. -/
def round (file : Bytes) (size : ℕ) (s : LogReader) : Round :=
  if s.offset < s.len ∧ ¬ s.len < s.offset + OFFSET_LOG_TOT_LEN then
    if s.len < intAdd s.offset (s.buffer.uint32 (s.offset + OFFSET_LOG_TOT_LEN)).toInt32.toInt then
      s.nextChunk file size
    else
      match LogType.ofCode (s.buffer.word s.offset 4) with
      | none => .done s.logs
      | some t => s.decode t
  else s.nextChunk file size

/-- The loop, with a bound on the rounds. -/
def run (file : Bytes) (size : ℕ) : ℕ → LogReader → Option (List LogEntry)
  | 0, _ => none
  | fuel + 1, s =>
    match s.round file size with
    | .again s' => run file size fuel s'
    | .done logs => some logs
    | .stuck => none

/-- The loop ends with these records in `logs_`. -/
def Reads (file : Bytes) (size : ℕ) (s : LogReader) (logs : List LogEntry) : Prop :=
  ∃ fuel, run file size fuel s = some logs

/-! ## Rounds -/

section Rounds

variable {file : Bytes} {size : ℕ} {s s' : LogReader} {logs logs' : List LogEntry}

theorem reads_of_again (h : s.round file size = .again s') :
    s.Reads file size logs ↔ s'.Reads file size logs := by
  constructor
  · rintro ⟨fuel, hfuel⟩
    cases fuel with
    | zero => cases hfuel
    | succ fuel =>
      rw [run, h] at hfuel
      exact ⟨fuel, hfuel⟩
  · rintro ⟨fuel, hfuel⟩
    refine ⟨fuel + 1, ?_⟩
    rw [run, h]
    exact hfuel

theorem reads_of_done (h : s.round file size = .done logs') :
    s.Reads file size logs ↔ logs = logs' := by
  constructor
  · rintro ⟨fuel, hfuel⟩
    cases fuel with
    | zero => cases hfuel
    | succ fuel =>
      rw [run, h] at hfuel
      exact (Option.some.inj hfuel).symm
  · rintro rfl
    refine ⟨1, ?_⟩
    rw [run, h]

theorem not_reads_of_stuck (h : s.round file size = .stuck) : ¬ s.Reads file size logs := by
  rintro ⟨fuel, hfuel⟩
  cases fuel with
  | zero => cases hfuel
  | succ fuel =>
    rw [run, h] at hfuel
    cases hfuel

/-- A round that changes nothing is repeated for ever. -/
theorem not_reads_of_loop (h : s.round file size = .again s) : ¬ s.Reads file size logs := by
  rintro ⟨fuel, hfuel⟩
  induction fuel with
  | zero => cases hfuel
  | succ fuel ih =>
    rw [run, h] at hfuel
    exact ih hfuel

/-- `logs_` only grows. -/
theorem prefix_of_round (h : s.round file size = .again s') : s.logs <+: s'.logs := by
  have hchunk : ∀ s', s.nextChunk file size = .again s' → s.logs <+: s'.logs := by
    intro s' h
    unfold nextChunk at h
    split at h
    · cases h
    · split at h
      · cases h
      · cases h
        exact List.prefix_rfl
  unfold round at h
  split at h
  · split at h
    · exact hchunk s' h
    · split at h
      · cases h
      · unfold decode at h
        split at h
        · cases h
        · split at h
          · cases h
            exact List.prefix_append _ _
          · cases h
  · exact hchunk s' h

theorem done_of_round (h : s.round file size = .done logs) : logs = s.logs := by
  have hchunk : s.nextChunk file size = .done logs → logs = s.logs := by
    intro h
    unfold nextChunk at h
    split at h
    · cases h
    · split at h
      · cases h
        rfl
      · cases h
  unfold round at h
  split at h
  · split at h
    · exact hchunk h
    · split at h
      · cases h
        rfl
      · unfold decode at h
        split at h
        · cases h
        · split at h
          · cases h
          · cases h
  · exact hchunk h

theorem Reads.prefix_logs (h : s.Reads file size logs) : s.logs <+: logs := by
  obtain ⟨fuel, hfuel⟩ := h
  induction fuel generalizing s with
  | zero => cases hfuel
  | succ fuel ih =>
    rw [run] at hfuel
    cases hround : s.round file size with
    | again s' =>
      rw [hround] at hfuel
      exact (prefix_of_round hround).trans (ih hfuel)
    | done logs' =>
      rw [hround] at hfuel
      cases hfuel
      exact done_of_round hround ▸ List.prefix_rfl
    | stuck =>
      rw [hround] at hfuel
      cases hfuel

end Rounds

/-! ## Positions in the file -/

/-- The bytes of records one after the other. -/
def stream (rs : List LogEntry) : Bytes := rs.flatMap LogEntry.serialize

/-- Every record but a BEGIN comes after another one of its transaction; `att` are the transactions
known so far. -/
def Begun : List Int32 → List LogEntry → Prop
  | _, [] => True
  | att, e :: rs => (e.data.logType = .begin ∨ e.logTid ∈ att) ∧ Begun (e.logTid :: att) rs

/-- The length that is read of a record of which `avail` bytes are in the chunk: the bytes that are
missing are those behind the buffer. -/
def cutLen (size : ℕ) (m : Memory) (avail : ℕ) (e : LogEntry) : ℤ :=
  (UInt32.ofNat (leNat ((leBytes 4 e.logTotLen.toNat).take (avail - 8) ++
    m.read size (12 - avail)))).toInt32.toInt

/-- A record that begins 8 to 11 bytes before the end of the chunk still seems to reach over it. -/
def CutOk (size : ℕ) (m : Memory) (avail : ℕ) (e : LogEntry) : Prop :=
  8 ≤ avail → avail < 12 → (size : ℤ) < intAdd (size - avail) (cutLen size m avail e)

/-- Every record that the end of a chunk cuts seems to reach over it; `avail` bytes are left of the
current chunk, and a record that does not fit into them begins the next one. -/
def CutsOk (size : ℕ) (m : Memory) : ℕ → List LogEntry → Prop
  | _, [] => True
  | avail, e :: rs =>
    if e.data.totLen ≤ avail then CutsOk size m (avail - e.data.totLen) rs
    else CutOk size m avail e ∧ CutsOk size m (size - e.data.totLen) rs

/-- The loop takes the record at `k` for complete: its length, as it stands in the buffer, does not
reach over the `a` bytes that are left of the chunk. -/
def Seen (buffer : Memory) (k a : ℕ) : Prop :=
  8 ≤ a ∧ intAdd k (buffer.uint32 (k + 8)).toInt32.toInt ≤ k + a

/-- The loop ends at `tail`: nothing is there, or an unknown type that it looks at in this chunk or
in the next one, which begins there. -/
def Stops (size : ℕ) (tail : Bytes) (buffer : Memory) (avail : ℕ) : Prop :=
  tail = [] ∨ LogType.ofCode (leNat (tail.take 4)) = none ∧
    (Seen buffer (size - avail) (min avail tail.length) ∨
      Seen (buffer.store 0 (tail.take size)) 0 (min size tail.length))

/-- No record is longer than a chunk, and the loop ends at the `tail` behind the last one; `buffer`
is the current chunk, of which `avail` bytes are left. -/
def StopsAfter (size : ℕ) (tail : Bytes) : Memory → ℕ → List LogEntry → Prop
  | buffer, avail, [] => Stops size tail buffer avail
  | buffer, avail, e :: rs =>
    if e.data.totLen ≤ avail then StopsAfter size tail buffer (avail - e.data.totLen) rs
    else e.data.totLen ≤ size ∧
      StopsAfter size tail (buffer.store 0 ((stream (e :: rs) ++ tail).take size))
        (size - e.data.totLen) rs

/-- The loop stands in the chunk at `o`, `k` bytes into it, and `rs` are the records from there on,
with `tail` behind them; the memory behind the buffer is as in `m`. -/
structure At (file : Bytes) (size : ℕ) (m : Memory) (s : LogReader) (o k : ℕ) (rs : List LogEntry)
    (tail : Bytes) : Prop where
  off : s.off = o
  offset : s.offset = k
  len : s.len = ((file.drop o).take size).length
  le : k ≤ ((file.drop o).take size).length
  rest : file.drop (o + k) = stream rs ++ tail
  holds : s.buffer.Holds 0 ((file.drop o).take size)
  behind : ∀ i : ℤ, size ≤ i → s.buffer i = m i

section Positions

variable {file : Bytes} {size : ℕ} {m : Memory} {s s' : LogReader} {o k : ℕ} {e : LogEntry}
  {rs : List LogEntry} {tail : Bytes}

theorem stream_cons (e : LogEntry) (rs : List LogEntry) :
    stream (e :: rs) = e.serialize ++ stream rs :=
  List.flatMap_cons

/-- The rest of the chunk. -/
theorem At.holds_rest (h : At file size m s o k rs tail) :
    s.buffer.Holds k ((stream rs ++ tail).take (size - k)) := by
  have hsplit := List.take_append_drop k ((file.drop o).take size)
  have hholds := h.holds
  rw [← hsplit] at hholds
  obtain ⟨-, hdrop⟩ := Memory.holds_append.1 hholds
  rw [List.length_take, Nat.min_eq_left h.le, Int.zero_add, List.drop_take, List.drop_drop,
    h.rest] at hdrop
  exact hdrop

theorem At.length_le (h : At file size m s o k rs tail) : k ≤ size := by
  have := h.le
  rw [List.length_take] at this
  omega

theorem length_stream_pos (e : LogEntry) (rs : List LogEntry) (tail : Bytes) :
    0 < (stream (e :: rs) ++ tail).length := by
  have hle := e.data.le_totLen
  rw [stream_cons, List.length_append, List.length_append, e.length_serialize]
  rw [OFFSET_LOG_DATA] at hle
  omega

theorem At.file_length (h : At file size m s o k (e :: rs) tail) :
    file.length = o + k + (e.data.totLen + (stream rs ++ tail).length) := by
  have hlen := congrArg List.length h.rest
  have hpos := length_stream_pos e rs tail
  rw [← hlen, List.length_drop] at hpos
  rw [List.length_drop, stream_cons, List.append_assoc, List.length_append,
    e.length_serialize] at hlen
  omega

/-- The next chunk is read where the last one was left. -/
theorem nextChunk_at {p : ℕ} (hoff : s.off + s.offset = p) (hrest : file.drop p = stream rs ++ tail)
    (hpos : 0 < (stream rs ++ tail).length) (hbehind : ∀ i : ℤ, size ≤ i → s.buffer i = m i)
    (hsize : 0 < size) :
    ∃ s', s.nextChunk file size = .again s' ∧ At file size m s' p 0 rs tail ∧ s'.logs = s.logs ∧
      s'.att = s.att ∧ s'.buffer = s.buffer.store 0 ((stream rs ++ tail).take size) := by
  rw [← hrest, List.length_drop] at hpos
  have hread : readLog file size (s.off + s.offset) s.buffer =
      some ((((file.drop p).take size).length : ℤ),
        s.buffer.store 0 ((file.drop p).take size)) := by
    unfold readLog
    rw [hoff, if_neg (by omega), if_neg (by omega), Int.toNat_natCast]
  unfold LogReader.nextChunk
  rw [hread]
  simp only
  rw [if_neg (by rw [List.length_take, List.length_drop]; omega)]
  refine ⟨_, rfl, ⟨hoff, rfl, rfl, Nat.zero_le _, hrest, Memory.holds_store .., fun i hi => ?_⟩,
    rfl, rfl, ?_⟩
  · have hlt := List.length_take_le size (file.drop p)
    exact (Memory.store_of_le (by omega)).trans (hbehind i hi)
  · rw [hrest]

theorem At.nextChunk (h : At file size m s o k rs tail) (hpos : 0 < (stream rs ++ tail).length)
    (hsize : 0 < size) :
    ∃ s', s.nextChunk file size = .again s' ∧ At file size m s' (o + k) 0 rs tail ∧
    s'.logs = s.logs ∧
      s'.att = s.att ∧ s'.buffer = s.buffer.store 0 ((stream rs ++ tail).take size) :=
  nextChunk_at (by rw [h.off, h.offset]; rfl) h.rest hpos h.behind hsize

/-- After the last record. -/
theorem At.done (h : At file size m s o k [] []) : s.round file size = .done s.logs := by
  have hfile : file.length ≤ o + k := List.drop_eq_nil_iff.1 h.rest
  have hk : s.len ≤ s.offset := by
    rw [h.len, h.offset, List.length_take, List.length_drop]
    omega
  have hround : s.round file size = s.nextChunk file size := by
    unfold round
    rw [if_neg fun hc => absurd hc.1 (by omega)]
  have hread : ∃ len buffer, readLog file size (s.off + s.offset) s.buffer = some (len, buffer) ∧
      len ≤ 0 := by
    unfold readLog
    rw [h.off, h.offset, if_neg (by omega)]
    split
    · exact ⟨_, _, rfl, by omega⟩
    · refine ⟨_, _, rfl, ?_⟩
      rw [show ((o : ℤ) + k).toNat = o + k by omega, List.drop_eq_nil_iff.2 hfile]
      simp
  obtain ⟨len, buffer, hread, hlen⟩ := hread
  rw [hround]
  unfold LogReader.nextChunk
  rw [hread]
  simp only
  rw [if_pos hlen]

/-- The `int` of a length. -/
theorem toInt_logTotLen (hb : e.Built) (hlen : e.data.totLen < 2 ^ 31) :
    e.logTotLen.toInt32.toInt = e.data.totLen := by
  have heq : e.logTotLen = UInt32.ofNat e.data.totLen := by
    rw [← hb]
    exact UInt32.ofNat_toNat.symm
  rw [heq, UInt32.toInt32_ofNat']
  exact Int32.toInt_ofNat_of_lt hlen

/-- A record that is complete in the chunk. -/
theorem At.fit (h : At file size m s o k (e :: rs) tail) (hfile : file.length < 2 ^ 31)
    (hb : e.Built) (hfit : e.data.totLen ≤ size - k) :
    s.round file size =
      if e.data.logType = .begin ∨ e.logTid ∈ s.att then
        .again { s with
          offset := s.offset + e.data.totLen, logs := s.logs ++ [e], att := e.logTid :: s.att }
      else .stuck := by
  have hlength := h.file_length
  have hmin := e.data.le_totLen
  rw [OFFSET_LOG_DATA] at hmin
  have hholds : s.buffer.Holds k e.serialize := by
    have hrest := h.holds_rest
    rw [stream_cons, List.append_assoc, List.take_append,
      List.take_of_length_le (by rw [e.length_serialize]; exact hfit)] at hrest
    exact (Memory.holds_append.1 hrest).1
  have hlen : s.len = size ∨ (o + k + e.data.totLen ≤ file.length ∧ s.len = file.length - o) := by
    rw [h.len, List.length_take, List.length_drop]
    omega
  obtain ⟨htype, -, htot, -⟩ := LogEntry.header_of_holds (Memory.holds_append.1 hholds).1
  have hint := toInt_logTotLen hb (by omega)
  have hadd : intAdd s.offset e.data.totLen = s.offset + e.data.totLen :=
    intAdd_eq (by rw [h.offset]; omega) (by rw [h.offset]; omega)
  unfold round
  rw [h.offset] at hadd ⊢
  rw [htot, htype, hint, LogType.ofCode_code, hadd, OFFSET_LOG_TOT_LEN, if_pos (by omega),
    if_neg (by omega)]
  simp only
  unfold decode
  rw [h.offset, LogEntry.deserialize_of_holds hholds (by omega)]
  simp only [hint, hadd]

/-- The place after a complete record. -/
theorem At.after (h : At file size m s o k (e :: rs) tail) (hfit : e.data.totLen ≤ size - k) :
    At file size m
      { s with offset := s.offset + e.data.totLen, logs := s.logs ++ [e], att := e.logTid :: s.att }
      o (k + e.data.totLen) rs tail := by
  have hlength := h.file_length
  have hle := h.le
  refine ⟨h.off, ?_, h.len, ?_, ?_, h.holds, h.behind⟩
  · simp only [h.offset]
    omega
  · rw [List.length_take, List.length_drop] at hle ⊢
    omega
  · rw [← Nat.add_assoc, ← List.drop_drop, h.rest, stream_cons, List.append_assoc,
      ← e.length_serialize, List.drop_left]

/-- The part of a cut record behind its LSN that is in the chunk. -/
theorem At.holds_cut (h : At file size m s o k (e :: rs) tail) (hcut : size - k < e.data.totLen)
    (havail : 8 ≤ size - k) :
    ∃ after, s.buffer.Holds (k + 8)
    ((leBytes 4 e.logTotLen.toNat ++ after).take (size - k - 8)) := by
  have hrest := h.holds_rest
  rw [stream_cons, List.append_assoc,
    List.take_append_of_le_length (by rw [e.length_serialize]; omega)] at hrest
  have hbytes : e.serialize = (leBytes 4 e.data.logType.code ++ int32Bytes e.lsn) ++
      (leBytes 4 e.logTotLen.toNat ++
        (int32Bytes e.logTid ++ int32Bytes e.prevLsn ++ e.data.bytes)) := by
    simp [LogEntry.serialize, LogEntry.header]
  rw [hbytes, List.take_append, List.take_of_length_le (by simpa using havail)] at hrest
  obtain ⟨-, hafter⟩ := Memory.holds_append.1 hrest
  have hhead : (leBytes 4 e.data.logType.code ++ int32Bytes e.lsn).length = 8 := by
    simp
  rw [hhead] at hafter
  exact ⟨_, hafter⟩

/-- The length that is read of a cut record. -/
theorem At.uint32_cut (h : At file size m s o k (e :: rs) tail) (hcut : size - k < e.data.totLen)
    (havail : 8 ≤ size - k) (havail' : size - k < 12) :
    (s.buffer.uint32 (k + 8)).toInt32.toInt = cutLen size m (size - k) e := by
  obtain ⟨after, hholds⟩ := h.holds_cut hcut havail
  have hk := h.length_le
  rw [List.take_append_of_le_length (by rw [length_leBytes]; omega)] at hholds
  unfold Memory.Holds at hholds
  rw [List.length_take, length_leBytes, Nat.min_eq_left (by omega)] at hholds
  have hbehind : s.buffer.read size (12 - (size - k)) = m.read size (12 - (size - k)) :=
    Memory.read_congr fun i hi _ => h.behind i hi
  have hread : s.buffer.read (k + 8) 4 =
      (leBytes 4 e.logTotLen.toNat).take (size - k - 8) ++ m.read size (12 - (size - k)) := by
    rw [← hbehind, ← hholds, show (size : ℤ) = k + 8 + ((size - k - 8 : ℕ) : ℤ) by omega,
      ← Memory.read_add]
    congr 1
    omega
  rw [Memory.uint32, Memory.word, hread, cutLen]

/-- A cut record whose length is in the chunk. -/
theorem At.uint32_whole (h : At file size m s o k (e :: rs) tail) (hcut : size - k < e.data.totLen)
    (havail : 12 ≤ size - k) : s.buffer.uint32 (k + 8) = e.logTotLen := by
  obtain ⟨after, hholds⟩ := h.holds_cut hcut (by omega)
  rw [List.take_append, List.take_of_length_le (by rw [length_leBytes]; omega)] at hholds
  exact uint32_of_holds (Memory.holds_append.1 hholds).1

theorem At.len_cut (h : At file size m s o k (e :: rs) tail) (hcut : size - k < e.data.totLen) :
    s.len = size := by
  have hlength := h.file_length
  have hk := h.length_le
  rw [h.len, List.length_take, List.length_drop]
  omega

/-- A cut record that seems to reach over the end of the chunk is left to the next one. -/
theorem At.cut (h : At file size m s o k (e :: rs) tail) (hfile : file.length < 2 ^ 31)
    (hb : e.Built) (hcut : size - k < e.data.totLen) (hok : CutOk size m (size - k) e) :
    s.round file size = s.nextChunk file size := by
  have hlength := h.file_length
  have hk := h.length_le
  unfold round
  rw [h.len_cut hcut, h.offset, OFFSET_LOG_TOT_LEN]
  by_cases havail : size - k < 8
  · rw [if_neg (by omega)]
  · rw [if_pos (by omega), if_pos]
    by_cases havail' : size - k < 12
    · have hcutLen := h.uint32_cut hcut (by omega) havail'
      have hlt := hok (by omega) havail'
      rw [show (size : ℤ) - ((size - k : ℕ) : ℤ) = k by omega] at hlt
      rw [show ((8 : ℕ) : ℤ) = 8 from rfl, hcutLen]
      exact hlt
    · rw [show ((8 : ℕ) : ℤ) = 8 from rfl, h.uint32_whole hcut (by omega),
        toInt_logTotLen hb (by omega), intAdd_eq (by omega) (by omega)]
      omega

/-- A cut record that seems to end in the chunk is decoded with a wrong length. -/
theorem At.cut_wrong (h : At file size m s o k (e :: rs) tail) (hfile : file.length < 2 ^ 31)
    (hb : e.Built) (hcut : size - k < e.data.totLen) (hok : ¬ CutOk size m (size - k) e) :
    ¬ s.Reads file size (s.logs ++ e :: rs) := by
  have hlength := h.file_length
  have hk := h.length_le
  unfold CutOk at hok
  push Not at hok
  obtain ⟨havail, havail', hle⟩ := hok
  rw [show (size : ℤ) - ((size - k : ℕ) : ℤ) = k by omega] at hle
  have hcutLen := h.uint32_cut hcut havail havail'
  have hne : s.buffer.uint32 (k + 8) ≠ e.logTotLen := by
    intro heq
    rw [← hcutLen, heq, toInt_logTotLen hb (by omega), intAdd_eq (by omega) (by omega)] at hle
    omega
  have hround : s.round file size = match LogType.ofCode (s.buffer.word s.offset 4) with
      | none => .done s.logs
      | some t => s.decode t := by
    unfold round
    rw [h.len_cut hcut, h.offset, OFFSET_LOG_TOT_LEN, if_pos (by omega),
      show ((8 : ℕ) : ℤ) = 8 from rfl,
      hcutLen, if_neg (by omega)]
  intro hreads
  cases htype : LogType.ofCode (s.buffer.word s.offset 4) with
  | none =>
    rw [htype] at hround
    have := (reads_of_done hround).1 hreads
    simp at this
  | some t =>
    rw [htype] at hround
    simp only at hround
    unfold decode at hround
    split at hround
    · exact not_reads_of_stuck hround hreads
    · rename_i e' he'
      split at hround
      · have hprefix := ((reads_of_again hround).1 hreads).prefix_logs
        simp only [List.prefix_append_right_inj] at hprefix
        have hee : e' = e := (List.cons_prefix_cons.1 hprefix).1
        obtain ⟨data, -, hmake⟩ := Option.bind_eq_some_iff.1 he'
        have htot : e'.logTotLen = s.buffer.uint32 (s.offset + OFFSET_LOG_TOT_LEN) := by
          cases hmake
          rfl
        rw [hee, h.offset] at htot
        exact hne htot.symm
      · exact not_reads_of_stuck hround hreads

/-- A chunk that begins at the place where the loop stands is read again as it is. -/
theorem At.nextChunk_self (h : At file size m s o 0 rs tail) (hpos : 0 < (stream rs ++ tail).length)
    (hsize : 0 < size) : s.nextChunk file size = .again s := by
  have hrest : file.drop o = stream rs ++ tail := h.rest
  have hoff : s.off + s.offset = o := by
    rw [h.off, h.offset]
    omega
  rw [← hrest, List.length_drop] at hpos
  have hread : readLog file size (s.off + s.offset) s.buffer = some (s.len, s.buffer) := by
    unfold readLog
    rw [hoff, if_neg (by omega), if_neg (by omega), Int.toNat_natCast]
    simp only
    rw [Memory.store_of_holds h.holds, h.len]
  have hlen : ¬ s.len ≤ 0 := by
    rw [h.len, List.length_take, List.length_drop]
    omega
  unfold LogReader.nextChunk
  rw [hread]
  simp only
  rw [if_neg hlen, hoff, ← h.off]
  have hoffset : s.offset = 0 := h.offset
  cases s
  simp only at hoffset
  rw [hoffset]

/-! ## Behind the last record -/

theorem At.len_tail (h : At file size m s o k [] tail) (htail : tail ≠ []) :
    s.len = k + (min (size - k) tail.length : ℕ) := by
  have hlength : (file.drop (o + k)).length = tail.length := congrArg List.length h.rest
  have hpos : 0 < tail.length := List.length_pos_iff.2 htail
  have hk := h.length_le
  rw [List.length_drop] at hlength
  rw [h.len, List.length_take, List.length_drop]
  omega

/-- The loop looks at the type of what is not a record. -/
theorem At.reads_of_seen (h : At file size m s o k [] tail) (htail : tail ≠ [])
    (hseen : Seen s.buffer k (min (size - k) tail.length)) :
    s.Reads file size s.logs ↔ LogType.ofCode (leNat (tail.take 4)) = none := by
  obtain ⟨hmin, hle⟩ := hseen
  have hword : s.buffer.word s.offset 4 = leNat (tail.take 4) := by
    have hrest : s.buffer.Holds k (tail.take (size - k)) := h.holds_rest
    rw [← List.take_append_drop 4 (tail.take (size - k)), List.take_take,
      Nat.min_eq_left (by omega)] at hrest
    have hhead := (Memory.holds_append.1 hrest).1
    unfold Memory.Holds at hhead
    rw [List.length_take, Nat.min_eq_left (by omega)] at hhead
    rw [Memory.word, h.offset, hhead]
  have hround : s.round file size = match LogType.ofCode (leNat (tail.take 4)) with
      | none => .done s.logs
      | some t => s.decode t := by
    unfold round
    rw [hword, h.len_tail htail, h.offset, OFFSET_LOG_TOT_LEN, if_pos (by omega),
      show ((8 : ℕ) : ℤ) = 8 from rfl, if_neg (by omega)]
  cases htype : LogType.ofCode (leNat (tail.take 4)) with
  | none =>
    rw [htype] at hround
    simp [reads_of_done hround]
  | some t =>
    rw [htype] at hround
    simp only at hround
    unfold decode at hround
    refine iff_of_false (fun hreads => ?_) (Option.some_ne_none t)
    split at hround
    · exact not_reads_of_stuck hround hreads
    · split at hround
      · have hprefix := ((reads_of_again hround).1 hreads).prefix_logs.length_le
        simp at hprefix
      · exact not_reads_of_stuck hround hreads

theorem At.round_of_not_seen (h : At file size m s o k [] tail) (htail : tail ≠ [])
    (hseen : ¬ Seen s.buffer k (min (size - k) tail.length)) :
    s.round file size = s.nextChunk file size := by
  unfold round
  rw [h.len_tail htail, h.offset, OFFSET_LOG_TOT_LEN]
  by_cases hmin : 8 ≤ min (size - k) tail.length
  · have hlt : ¬ intAdd k (s.buffer.uint32 (k + 8)).toInt32.toInt ≤
      k + (min (size - k) tail.length : ℕ) :=
      fun hle => hseen ⟨hmin, hle⟩
    rw [if_pos (by omega), show ((8 : ℕ) : ℤ) = 8 from rfl, if_pos (by omega)]
  · rw [if_neg (by omega)]

/-- The loop ends behind the last record exactly when nothing follows or it looks at an unknown
type. -/
theorem At.reads_tail_iff (h : At file size m s o k [] tail) (hsize : 0 < size) :
    s.Reads file size s.logs ↔ Stops size tail s.buffer (size - k) := by
  by_cases htail : tail = []
  · subst htail
    simp [reads_of_done h.done, Stops]
  have hk : size - (size - k) = k := by
    have := h.length_le
    omega
  rw [Stops, hk, or_iff_right htail]
  by_cases hseen : Seen s.buffer k (min (size - k) tail.length)
  · rw [h.reads_of_seen htail hseen, and_iff_left (Or.inl hseen)]
  · have hpos : 0 < (stream [] ++ tail).length := List.length_pos_iff.2 htail
    obtain ⟨s', hs', hat, hlogs, -, hbuffer⟩ := h.nextChunk hpos hsize
    rw [reads_of_again ((h.round_of_not_seen htail hseen).trans hs'), or_iff_right hseen, ← hlogs]
    have hbuffer : s'.buffer = s.buffer.store 0 (tail.take size) := hbuffer
    rw [← hbuffer]
    by_cases hseen' : Seen s'.buffer 0 (min size tail.length)
    · rw [hat.reads_of_seen htail hseen', and_iff_left hseen']
    · have hloop := (hat.round_of_not_seen htail hseen').trans (hat.nextChunk_self hpos hsize)
      exact iff_of_false (not_reads_of_loop hloop) fun hstop => hseen' hstop.2

/-- From a position on, the loop appends the records that follow exactly when their transactions
begin in time, no chunk ends in a length in such a way that the record seems complete, no record is
longer than a chunk and the loop ends behind the last one. -/
theorem At.reads_iff (h : At file size m s o k rs tail) (hfile : file.length < 2 ^ 31)
    (hb : ∀ e ∈ rs, e.Built) (hsize : 12 ≤ size) :
    s.Reads file size (s.logs ++ rs) ↔
      Begun s.att rs ∧ CutsOk size m (size - k) rs ∧
        StopsAfter size tail s.buffer (size - k) rs := by
  induction rs generalizing s o k with
  | nil => simp [h.reads_tail_iff (by omega), Begun, CutsOk, StopsAfter]
  | cons e rs ih =>
    have hbe := hb e List.mem_cons_self
    have hpos := length_stream_pos e rs tail
    -- A record that fits is decoded, and the others follow.
    have hfits : ∀ {s : LogReader} {o k : ℕ}, At file size m s o k (e :: rs) tail →
        e.data.totLen ≤ size - k →
        (s.Reads file size (s.logs ++ e :: rs) ↔
          Begun s.att (e :: rs) ∧ CutsOk size m (size - k - e.data.totLen) rs ∧
            StopsAfter size tail s.buffer (size - k - e.data.totLen) rs) := by
      intro s o k h hfit
      have hround := h.fit hfile hbe hfit
      by_cases hbegun : e.data.logType = .begin ∨ e.logTid ∈ s.att
      · rw [if_pos hbegun] at hround
        have hih := ih (h.after hfit) fun e' he' => hb e' (List.mem_cons_of_mem _ he')
        rw [List.append_assoc, List.singleton_append] at hih
        rw [reads_of_again hround, hih, Begun, and_iff_right hbegun, Nat.sub_sub]
      · rw [if_neg hbegun] at hround
        rw [iff_false_left (not_reads_of_stuck hround), Begun]
        exact fun hall => hbegun hall.1.1
    rw [CutsOk, StopsAfter]
    by_cases hfit : e.data.totLen ≤ size - k
    · rw [if_pos hfit, if_pos hfit, hfits h hfit]
    · rw [if_neg hfit, if_neg hfit]
      have hcut : size - k < e.data.totLen := by omega
      by_cases hok : CutOk size m (size - k) e
      · obtain ⟨s', hs', hat, hlogs, hatt, hbuffer⟩ := h.nextChunk hpos (by omega)
        have hround := h.cut hfile hbe hcut hok
        rw [reads_of_again (hround.trans hs'), ← hlogs]
        by_cases hlong : e.data.totLen ≤ size
        · rw [hfits hat (by omega), hatt, hbuffer, and_iff_right hok, and_iff_right hlong]
          rfl
        · -- A record that is longer than a chunk is never complete.
          have hloop := (hat.cut hfile hbe (by omega) fun _ hlt => absurd hlt (by omega)).trans
            (hat.nextChunk_self hpos (by omega))
          exact iff_of_false (not_reads_of_loop hloop) fun hall => hlong hall.2.2.1
      · rw [iff_false_left (h.cut_wrong hfile hbe hcut hok)]
        exact fun hall => hok hall.2.1.1

theorem stopsAfter_nil {buffer : Memory} {avail : ℕ} (hsize : ∀ e ∈ rs, e.data.totLen ≤ size) :
    StopsAfter size [] buffer avail rs := by
  induction rs generalizing buffer avail with
  | nil => exact .inl rfl
  | cons e rs ih =>
    have hrest : ∀ e' ∈ rs, e'.data.totLen ≤ size :=
      fun e' he' => hsize e' (List.mem_cons_of_mem _ he')
    rw [StopsAfter]
    split
    · exact ih hrest
    · exact ⟨hsize e List.mem_cons_self, ih hrest⟩

/-- The same from the start. -/
theorem reads_start_iff (hfile : (stream rs ++ tail).length < 2 ^ 31) (hb : ∀ e ∈ rs, e.Built)
    (hsize : 12 ≤ size) :
    Reads (stream rs ++ tail) size { buffer := m } rs ↔
      Begun [] rs ∧ CutsOk size m size rs ∧
        StopsAfter size tail (m.store 0 ((stream rs ++ tail).take size)) size rs := by
  have hround : round (stream rs ++ tail) size { buffer := m } =
      LogReader.nextChunk (stream rs ++ tail) size { buffer := m } :=
    if_neg fun hc => absurd hc.1 (Int.lt_irrefl 0)
  by_cases hpos : 0 < (stream rs ++ tail).length
  · obtain ⟨s', hs', hat, hlogs, hatt, hbuffer⟩ := nextChunk_at (s := { buffer := m }) (p := 0) rfl
      List.drop_zero hpos (fun _ _ => rfl) (show 0 < size by omega)
    have hreads := hat.reads_iff hfile hb hsize
    rw [hlogs, hatt, hbuffer] at hreads
    exact (reads_of_again (hround.trans hs')).trans hreads
  · have hnil : stream rs ++ tail = [] := List.eq_nil_of_length_eq_zero (by omega)
    obtain ⟨hstream, rfl⟩ := List.append_eq_nil_iff.1 hnil
    cases rs with
    | nil =>
      have hdone : round (stream [] ++ []) size { buffer := m } = .done [] := by
        simp [round, LogReader.nextChunk, readLog, stream]
      rw [reads_of_done hdone]
      simp [Begun, CutsOk, StopsAfter, Stops]
    | cons e rs =>
      have := length_stream_pos e rs []
      omega

end Positions

/-- The reading loop appends exactly the records that were written, in order and field for field, if
and only if every record but a BEGIN comes after one of its transaction and no full chunk ends 8 to
11 bytes into a record in such a way that its length, with the missing bytes taken from behind the
buffer, does not reach over the end. -/
theorem reads_written_iff (size : ℕ) (m : Memory) (rs : List LogEntry) (hb : ∀ e ∈ rs, e.Built)
    (hfile : (stream rs).length < 2 ^ 31) (hsize : ∀ e ∈ rs, e.data.totLen < size) :
    Reads (stream rs) size { buffer := m } rs ↔ Begun [] rs ∧ CutsOk size m size rs := by
  cases rs with
  | nil =>
    have hdone : round (stream []) size { buffer := m } = .done [] := by
      simp [round, LogReader.nextChunk, readLog, stream]
    simp [reads_of_done hdone, Begun, CutsOk]
  | cons e rs =>
    have hmin := e.data.le_totLen
    have hlt := hsize e List.mem_cons_self
    rw [OFFSET_LOG_DATA] at hmin
    have hreads : Reads (stream (e :: rs) ++ []) size { buffer := m } (e :: rs) ↔ _ :=
      reads_start_iff (by rwa [List.append_nil]) hb (by omega)
    rw [List.append_nil] at hreads
    rw [hreads, and_iff_left (stopsAfter_nil fun e' he' => Nat.le_of_lt (hsize e' he'))]

/-- Two BEGIN records. -/
def twoBegins : List LogEntry := [⟨0, 20, 0, -1, .begin⟩, ⟨1, 20, 1, -1, .begin⟩]

/-- A chunk of 27 bytes ends in the LSN of the second record. -/
theorem reads_written_iff_two_begins :
    Reads (stream twoBegins) 27 { buffer := fun _ => 0 } twoBegins ∧
    (Reads (stream twoBegins) 27 { buffer := fun _ => 0 } twoBegins ↔
      Begun [] twoBegins ∧ CutsOk 27 (fun _ => 0) 27 twoBegins) :=
  ⟨⟨5, by decide⟩, reads_written_iff 27 (fun _ => 0) twoBegins (by decide) (by decide) (by decide)⟩

/-- A chunk of 28 bytes ends right before the length of the second record, which is read as 0 from
behind the buffer: the record is decoded over and over again. -/
theorem not_reads_written :
    ¬ ∀ (size : ℕ) (m : Memory) (rs : List LogEntry), (∀ e ∈ rs, e.Built) →
    (stream rs).length < 2 ^ 31 → (∀ e ∈ rs, e.data.totLen < size) → m size = 0 → Begun [] rs →
      Reads (stream rs) size { buffer := m } rs := by
  intro hall
  have hbegun : Begun [] twoBegins := ⟨Or.inl rfl, Or.inl rfl, trivial⟩
  have hreads := hall 28 (fun _ => 0) twoBegins (by decide) (by decide) (by decide) rfl hbegun
  rw [← List.append_nil (stream twoBegins)] at hreads
  have hcuts := ((reads_start_iff (by decide) (by decide) (by decide)).1 hreads).2.1
  have hcut : CutOk 28 (fun _ => 0) 8 ⟨1, 20, 1, -1, .begin⟩ := hcuts.1
  exact absurd (hcut (by decide) (by decide)) (by decide)

/-! ## Any content of the file -/

/-- The bytes begin with a complete record. -/
def BeginsRecord (bs : Bytes) : Prop := ∃ e : LogEntry, e.Built ∧ e.serialize <+: bs

/-- `rs` are the complete records of the file, and `tail` is what follows: it begins with an
incomplete record or with none. -/
structure CompleteRecords (file : Bytes) (rs : List LogEntry) (tail : Bytes) : Prop where
  file_eq : file = stream rs ++ tail
  built : ∀ e ∈ rs, e.Built
  tail_ends : ¬ BeginsRecord tail

section Content

variable {file bs : Bytes} {rs rs' : List LogEntry} {tail tail' : Bytes} {e e' : LogEntry}

/-- Bytes begin with at most one record. -/
theorem eq_of_serialize_prefix (h : e.serialize <+: bs) (h' : e'.serialize <+: bs)
    (hbs : bs.length < 2 ^ 31) : e = e' := by
  have hholds : ∀ e : LogEntry, e.serialize <+: bs →
      (Memory.store (fun _ => 0) 0 bs).Holds 0 e.serialize ∧ e.data.totLen < 2 ^ 31 := by
    rintro e ⟨rest, hrest⟩
    have hall := Memory.holds_store (fun _ => 0) 0 bs
    have hlen := congrArg List.length hrest
    rw [List.length_append, e.length_serialize] at hlen
    refine ⟨?_, by omega⟩
    rw [← hrest] at hall
    rw [← hrest]
    exact (Memory.holds_append.1 hall).1
  obtain ⟨hm, hlen⟩ := hholds e h
  obtain ⟨hm', hlen'⟩ := hholds e' h'
  have hcode := (LogEntry.header_of_holds (Memory.holds_append.1 hm).1).1
  have hcode' := (LogEntry.header_of_holds (Memory.holds_append.1 hm').1).1
  have htype : e.data.logType = e'.data.logType := by
    have := congrArg LogType.ofCode (hcode.symm.trans hcode')
    rwa [LogType.ofCode_code, LogType.ofCode_code, Option.some.injEq] at this
  have hread := LogEntry.deserialize_of_holds hm hlen
  rw [htype, LogEntry.deserialize_of_holds hm' hlen'] at hread
  exact (Option.some.inj hread).symm

theorem exists_completeRecords (file : Bytes) : ∃ rs tail, CompleteRecords file rs tail := by
  induction hn : file.length using Nat.strong_induction_on generalizing file with
  | _ n ih =>
    by_cases hbegins : BeginsRecord file
    · obtain ⟨e, hbuilt, rest, rfl⟩ := hbegins
      have hmin := e.data.le_totLen
      rw [OFFSET_LOG_DATA] at hmin
      rw [List.length_append, e.length_serialize] at hn
      obtain ⟨rs, tail, hfile, hb, htail⟩ := ih rest.length (by omega) rest rfl
      refine ⟨e :: rs, tail, ?_, ?_, htail⟩
      · rw [stream_cons, List.append_assoc, ← hfile]
      · intro e' he'
        rcases List.mem_cons.1 he' with rfl | he'
        · exact hbuilt
        · exact hb e' he'
    · refine ⟨[], file, rfl, fun e he => ?_, hbegins⟩
      cases he

theorem CompleteRecords.unique (h : CompleteRecords file rs tail)
    (h' : CompleteRecords file rs' tail')
    (hfile : file.length < 2 ^ 31) : rs' = rs ∧ tail' = tail := by
  induction rs generalizing file rs' with
  | nil =>
    cases rs' with
    | nil => exact ⟨rfl, h'.file_eq.symm.trans h.file_eq⟩
    | cons e rs' =>
      refine absurd ⟨e, h'.built e List.mem_cons_self, stream rs' ++ tail', ?_⟩ h.tail_ends
      rw [← List.append_assoc, ← stream_cons]
      exact h'.file_eq.symm.trans h.file_eq
  | cons e rs ih =>
    have hfile_eq : file = e.serialize ++ (stream rs ++ tail) := by
      rw [h.file_eq, stream_cons, List.append_assoc]
    cases rs' with
    | nil =>
      refine absurd ⟨e, h.built e List.mem_cons_self, stream rs ++ tail, ?_⟩ h'.tail_ends
      exact hfile_eq.symm.trans h'.file_eq
    | cons e' rs' =>
      have hfile_eq' : file = e'.serialize ++ (stream rs' ++ tail') := by
        rw [h'.file_eq, stream_cons, List.append_assoc]
      obtain rfl : e = e' := eq_of_serialize_prefix ⟨_, hfile_eq.symm⟩ ⟨_, hfile_eq'.symm⟩ hfile
      have hrest : stream rs ++ tail = stream rs' ++ tail' :=
        List.append_cancel_left (hfile_eq.symm.trans hfile_eq')
      rw [hfile_eq, List.length_append] at hfile
      obtain ⟨rfl, rfl⟩ :=
        ih ⟨rfl, fun e' he' => h.built e' (List.mem_cons_of_mem _ he'), h.tail_ends⟩
        ⟨hrest, fun e' he' => h'.built e' (List.mem_cons_of_mem _ he'), h'.tail_ends⟩ (by omega)
      exact ⟨rfl, rfl⟩

end Content

/-- Every file has one list of complete records, and the loop ends with it in `logs_` if and only if
every record but a BEGIN comes after one of its transaction, no chunk ends in the length of a record
that then seems complete, no record is longer than a chunk, and behind the last record the file ends
or has an unknown type with a length that does not reach over what is left of the file. -/
theorem reads_complete_iff (size : ℕ) (m : Memory) (file : Bytes) (hfile : file.length < 2 ^ 31)
    (hsize : 12 ≤ size) :
    ∃ rs tail, CompleteRecords file rs tail ∧
      (∀ rs' tail', CompleteRecords file rs' tail' → rs' = rs ∧ tail' = tail) ∧
      (Reads file size { buffer := m } rs ↔
        Begun [] rs ∧ CutsOk size m size rs ∧
          StopsAfter size tail (m.store 0 (file.take size)) size rs) := by
  obtain ⟨rs, tail, h⟩ := exists_completeRecords file
  refine ⟨rs, tail, h, fun rs' tail' h' => h.unique h' hfile, ?_⟩
  obtain ⟨rfl, hb, -⟩ := h
  exact reads_start_iff hfile hb hsize

/-- A BEGIN record of which the last byte is missing. -/
def tornBegin : Bytes := (LogEntry.serialize ⟨0, 20, 0, -1, .begin⟩).take 19

theorem not_beginsRecord_tornBegin : ¬ BeginsRecord tornBegin := by
  rintro ⟨e, -, hprefix⟩
  have hle := hprefix.length_le
  have hmin := e.data.le_totLen
  rw [e.length_serialize] at hle
  have hlen : tornBegin.length = 19 := by decide
  rw [OFFSET_LOG_DATA] at hmin
  omega

/-- The loop does not end at the torn record. -/
theorem not_stops_tornBegin (size : ℕ) (buffer : Memory) (avail : ℕ) :
    ¬ Stops size tornBegin buffer avail := by
  rintro (hnil | ⟨htype, -⟩)
  · exact absurd hnil (by decide)
  · exact absurd htype (by decide)

/-- A torn record behind two complete ones. -/
theorem reads_complete_torn : ∃ rs tail, CompleteRecords (stream twoBegins ++ tornBegin) rs tail ∧
    (∀ rs' tail', CompleteRecords (stream twoBegins ++ tornBegin) rs' tail' → rs' = rs ∧
      tail' = tail) ∧
    (Reads (stream twoBegins ++ tornBegin) 4194304 { buffer := fun _ => 0 } rs ↔
      Begun [] rs ∧ CutsOk 4194304 (fun _ => 0) 4194304 rs ∧ StopsAfter 4194304 tail
        (Memory.store (fun _ => 0) 0 (List.take 4194304 (stream twoBegins ++ tornBegin)))
          4194304 rs) ∧
    rs = twoBegins ∧ ¬ Reads (stream twoBegins ++ tornBegin) 4194304
      { buffer := fun _ => 0 } rs := by
  obtain ⟨rs, tail, hcomplete, hunique, hiff⟩ :=
    reads_complete_iff 4194304 (fun _ => 0) (stream twoBegins ++ tornBegin) (by decide) (by decide)
  obtain ⟨hrs, htail⟩ := hunique twoBegins tornBegin ⟨rfl, by decide, not_beginsRecord_tornBegin⟩
  refine ⟨rs, tail, hcomplete, hunique, hiff, hrs.symm, fun hreads => ?_⟩
  have hstops := (hiff.1 hreads).2.2
  rw [← hrs, ← htail, twoBegins, StopsAfter, if_pos (by decide), StopsAfter,
    if_pos (by decide)] at hstops
  exact not_stops_tornBegin _ _ _ hstops

/-- With chunks of `LOG_BUFFER_SIZE` bytes, the loop reads the 19 bytes again and again. -/
theorem not_reads_complete :
    ¬ ∀ (file : Bytes) (rs : List LogEntry) (tail : Bytes), file.length < 2 ^ 31 →
      CompleteRecords file rs tail → Reads file 4194304 { buffer := fun _ => 0 } rs := by
  intro hall
  have hreads := hall tornBegin [] tornBegin (by decide) 
    ⟨rfl, fun e he => absurd he List.not_mem_nil, not_beginsRecord_tornBegin⟩
  have hiff : Reads (stream [] ++ tornBegin) 4194304 { buffer := fun _ => 0 } [] ↔ _ :=
    reads_start_iff (by decide) (fun e he => absurd he List.not_mem_nil) (by decide)
  exact not_stops_tornBegin _ _ _ (hiff.1 hreads).2.2

end LogReader

end Rmdb
