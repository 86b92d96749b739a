import AtomKV.FreeListRoundTrip
import AtomKV.LogReplay

/-!
# The bytes of the log

What `TxManager` and `Logger` append for a call, record by record, and what `Logger::Recover` reads
from it. A log that was written in full is read back call by call, except that the key of a
sub-bucket ends at its first zero. Of a log that is cut off after some record, the calls are read
whose records are all there, and a call on a bucket whose header is there is known to be cut.
-/

set_option autoImplicit false

namespace AtomKV

/-! ## What is written -/

/-- An unsigned number in `width` bytes. -/
def encodeLittle : (width n : ℕ) → Bytes
  | 0, _ => []
  | width + 1, n => UInt8.ofNat n :: encodeLittle width (n / 256)

/-- The byte that a record begins with. -/
def LogType.byte : LogType → UInt8
  | .kWalTxId => 0
  | .kBegin => 1
  | .kRollback => 2
  | .kCommit => 3
  | .kSubBucket => 4
  | .kPut_IsBucket => 5
  | .kPut_NotBucket => 6
  | .kDelete => 7

namespace Logger

/-- `Logger::AppendWalTxIdLog`. -/
def appendWalTxIdLog (txid : ℕ) : List Bytes := [LogType.kWalTxId.byte :: encodeLittle 8 txid]

end Logger

namespace TxManager

def appendBeginLog : List Bytes := [[LogType.kBegin.byte]]

def appendRollbackLog : List Bytes := [[LogType.kRollback.byte]]

def appendCommitLog : List Bytes := [[LogType.kCommit.byte]]

/-- A `BucketLogHeader`. -/
def bucketLogHeader (type : LogType) (bucketId : ℕ) : Bytes := type.byte :: Pager.encodeU32 bucketId

def appendSubBucketLog (bucketId : ℕ) (key : Bytes) : List Bytes :=
  [bucketLogHeader .kSubBucket bucketId, key]

def appendPutLog (bucketId : ℕ) (key value : Bytes) (isBucket : Bool) : List Bytes :=
  [bucketLogHeader (if isBucket then .kPut_IsBucket else .kPut_NotBucket) bucketId, key, value]

def appendDeleteLog (bucketId : ℕ) (key : Bytes) : List Bytes :=
  [bucketLogHeader .kDelete bucketId, key]

end TxManager

namespace LogCall

/-- The records of a call; the last three are no calls of the program. -/
def records : LogCall → List Bytes
  | walTxId txid => Logger.appendWalTxIdLog txid
  | begin => TxManager.appendBeginLog
  | rollback => TxManager.appendRollbackLog
  | commit => TxManager.appendCommitLog
  | bucket (.subBucket id key) => TxManager.appendSubBucketLog id key
  | bucket (.put id key value isBucket) => TxManager.appendPutLog id key value isBucket
  | bucket (.delete id key) => TxManager.appendDeleteLog id key
  | cut _ => []
  | malformed _ => []
  | unknown => []

/-- The numbers of the call fit their fields. -/
def Written : LogCall → Prop
  | walTxId txid => txid < 18446744073709551616
  | bucket c => c.bucketId < 4294967296
  | begin => True
  | rollback => True
  | commit => True
  | cut _ => False
  | malformed _ => False
  | unknown => False

/-- The call as it is read back. -/
def asRead : LogCall → LogCall
  | bucket (.subBucket id key) => bucket (.subBucket id (cString key))
  | c => c

/-- The call when the first of its records is read and another one is missing. -/
def cutOff : LogCall → LogCall
  | bucket c => cut c.bucketId
  | c => c

end LogCall

/-- The calls that are read when the log ends after `n` records. -/
def survivingCalls : ℕ → List LogCall → List LogCall
  | _, [] => []
  | n, c :: cs =>
      if c.records.length ≤ n then c.asRead :: survivingCalls (n - c.records.length) cs
      else if n = 0 then [] else [c.cutOff]

theorem LogCall.Written.records_pos {c : LogCall} (hc : c.Written) : 0 < c.records.length := by
  cases c with
  | bucket call => cases call <;> exact Nat.succ_pos _
  | walTxId txid => exact Nat.one_pos
  | begin => exact Nat.one_pos
  | rollback => exact Nat.one_pos
  | commit => exact Nat.one_pos
  | cut id => exact hc.elim
  | malformed type => exact hc.elim
  | unknown => exact hc.elim

theorem survivingCalls_zero {cs : List LogCall} (hcs : ∀ c ∈ cs, c.Written) :
    survivingCalls 0 cs = [] := by
  cases cs with
  | nil => rfl
  | cons c cs =>
    have hpos := (hcs c List.mem_cons_self).records_pos
    rw [survivingCalls, if_neg (Nat.not_le.2 hpos), if_pos rfl]

/-! ## Numbers -/

theorem littleEndian_encodeLittle (width : ℕ) :
    ∀ n, n < 256 ^ width → littleEndian (encodeLittle width n) = n := by
  induction width with
  | zero =>
    intro n hn
    exact (Nat.lt_one_iff.1 hn).symm
  | succ width ih =>
    intro n hn
    have hrest : n / 256 < 256 ^ width :=
      Nat.div_lt_of_lt_mul (by rwa [pow_succ, Nat.mul_comm] at hn)
    have hbyte : (UInt8.ofNat n).toNat = n % 256 := UInt8.toNat_ofNat'
    rw [encodeLittle, littleEndian_cons, ih _ hrest, hbyte]
    exact Nat.mod_add_div n 256

theorem length_encodeLittle (width : ℕ) : ∀ n, (encodeLittle width n).length = width := by
  induction width with
  | zero =>
    intro n
    rfl
  | succ width ih =>
    intro n
    rw [encodeLittle, List.length_cons, ih]

theorem decodeU32_header {id : ℕ} (hid : id < 4294967296) :
    Pager.decodeU32 (Pager.encodeU32 id) = id := by
  have hdecode := Pager.decodeU32_encodeU32 hid []
  rwa [List.append_nil] at hdecode

/-! ## Reading back -/

theorem LogType.ofByte_byte (type : LogType) : LogType.ofByte type.byte = some type := by
  cases type <;> rfl

section Header

variable {id : ℕ} (hid : id < 4294967296)

include hid

theorem readCalls_subBucket (key : Bytes) (rest : List Bytes) :
    readCalls (TxManager.appendSubBucketLog id key ++ rest) =
      .bucket (.subBucket id (cString key)) :: readCalls rest := by
  simp [TxManager.appendSubBucketLog, TxManager.bucketLogHeader, readCalls, LogType.ofByte_byte,
    Pager.length_encodeU32, decodeU32_header hid]

/-- The flag is in the type of the record. -/
theorem readCalls_put (key value : Bytes) (isBucket : Bool) (rest : List Bytes) :
    readCalls (TxManager.appendPutLog id key value isBucket ++ rest) =
      .bucket (.put id key value isBucket) :: readCalls rest := by
  cases isBucket <;> simp [TxManager.appendPutLog, TxManager.bucketLogHeader, readCalls,
    LogType.ofByte_byte, Pager.length_encodeU32, decodeU32_header hid]

theorem readCalls_delete (key : Bytes) (rest : List Bytes) :
    readCalls (TxManager.appendDeleteLog id key ++ rest) =
      .bucket (.delete id key) :: readCalls rest := by
  simp [TxManager.appendDeleteLog, TxManager.bucketLogHeader, readCalls, LogType.ofByte_byte,
    Pager.length_encodeU32, decodeU32_header hid]

/-- The key is missing. -/
theorem readCalls_subBucket_header :
    readCalls [TxManager.bucketLogHeader .kSubBucket id] = [.cut id] := by
  simp [TxManager.bucketLogHeader, readCalls, LogType.ofByte_byte, Pager.length_encodeU32,
    decodeU32_header hid]

theorem readCalls_delete_header :
    readCalls [TxManager.bucketLogHeader .kDelete id] = [.cut id] := by
  simp [TxManager.bucketLogHeader, readCalls, LogType.ofByte_byte, Pager.length_encodeU32,
    decodeU32_header hid]

/-- The value is missing, or the key too. -/
theorem readCalls_put_header (isBucket : Bool) (keys : List Bytes) (hkeys : keys.length ≤ 1) :
    readCalls (TxManager.bucketLogHeader (if isBucket then .kPut_IsBucket else .kPut_NotBucket)
      id :: keys) = [.cut id] := by
  obtain rfl | ⟨key, rfl⟩ : keys = [] ∨ ∃ key, keys = [key] := by
    rcases Nat.le_one_iff_eq_zero_or_eq_one.1 hkeys with h | h
    · exact .inl (List.length_eq_zero_iff.1 h)
    · exact .inr (List.length_eq_one_iff.1 h)
  all_goals cases isBucket <;>
    simp [TxManager.bucketLogHeader, readCalls, LogType.ofByte_byte, Pager.length_encodeU32,
    decodeU32_header hid]

end Header

/-- One call of a log that goes on. -/
theorem readCalls_records {c : LogCall} (hc : c.Written) (rest : List Bytes) :
    readCalls (c.records ++ rest) = c.asRead :: readCalls rest := by
  cases c with
  | walTxId txid =>
    have htxid : littleEndian ((encodeLittle 8 txid).take 8) = txid := by
      rw [List.take_of_length_le (length_encodeLittle 8 txid).le]
      exact littleEndian_encodeLittle 8 txid hc
    show readCalls ((LogType.kWalTxId.byte :: encodeLittle 8 txid) :: rest) = _
    rw [readCalls.eq_def]
    simp only [LogType.ofByte_byte, length_encodeLittle, Nat.le_refl, if_true, htxid]
    rfl
  | begin => rfl
  | rollback => rfl
  | commit => rfl
  | bucket call =>
    cases call with
    | subBucket id key => exact readCalls_subBucket hc key rest
    | put id key value isBucket => exact readCalls_put hc key value isBucket rest
    | delete id key => exact readCalls_delete hc key rest
  | cut id => exact hc.elim
  | malformed type => exact hc.elim
  | unknown => exact hc.elim

/-- Some but not all of the records of a call, at the end of the log. -/
theorem readCalls_cutOff {c : LogCall} (hc : c.Written) {n : ℕ} (hpos : n ≠ 0)
    (hn : n < c.records.length) : readCalls (c.records.take n) = [c.cutOff] := by
  obtain ⟨n, rfl⟩ := Nat.exists_eq_succ_of_ne_zero hpos
  cases c with
  | walTxId txid => exact absurd (Nat.lt_one_iff.1 hn) hpos
  | begin => exact absurd (Nat.lt_one_iff.1 hn) hpos
  | rollback => exact absurd (Nat.lt_one_iff.1 hn) hpos
  | commit => exact absurd (Nat.lt_one_iff.1 hn) hpos
  | bucket call =>
    cases call with
    | subBucket id key =>
      obtain rfl : n = 0 := Nat.lt_one_iff.1 (Nat.succ_lt_succ_iff.1 hn)
      exact readCalls_subBucket_header hc
    | put id key value isBucket =>
      -- the header, and the key if there are two records
      have hkeys : ([key, value].take n).length ≤ 1 :=
        (List.length_take_le _ _).trans (Nat.lt_succ_iff.1 (Nat.succ_lt_succ_iff.1 hn))
      exact readCalls_put_header hc isBucket _ hkeys
    | delete id key =>
      obtain rfl : n = 0 := Nat.lt_one_iff.1 (Nat.succ_lt_succ_iff.1 hn)
      exact readCalls_delete_header hc
  | cut id => exact hc.elim
  | malformed type => exact hc.elim
  | unknown => exact hc.elim

/-- A log that ends after some record. -/
theorem readCalls_take (cs : List LogCall) (hcs : ∀ c ∈ cs, c.Written) (n : ℕ) :
    readCalls ((cs.flatMap LogCall.records).take n) = survivingCalls n cs := by
  induction cs generalizing n with
  | nil =>
    rw [List.flatMap_nil, List.take_nil]
    rfl
  | cons c cs ih =>
    obtain ⟨hc, hcs⟩ := List.forall_mem_cons.1 hcs
    rw [List.flatMap_cons, survivingCalls]
    by_cases hall : c.records.length ≤ n
    · -- all records of the first call are there
      rw [if_pos hall, ← ih hcs, List.take_append, List.take_of_length_le hall]
      exact readCalls_records hc _
    · rw [if_neg hall, List.take_append_of_le_length (Nat.le_of_not_le hall)]
      by_cases hzero : n = 0
      · rw [if_pos hzero, hzero, List.take_zero]
        rfl
      · rw [if_neg hzero]
        exact readCalls_cutOff hc hzero (Nat.lt_of_not_le hall)

/-- A log that is all there. -/
theorem readCalls_all {cs : List LogCall} (hcs : ∀ c ∈ cs, c.Written) :
    readCalls (cs.flatMap LogCall.records) = cs.map LogCall.asRead := by
  induction cs with
  | nil => rfl
  | cons c cs ih =>
    obtain ⟨hc, hcs⟩ := List.forall_mem_cons.1 hcs
    rw [List.flatMap_cons, readCalls_records hc, ih hcs, List.map_cons]

/-- The key of a sub-bucket is read as a C string, and every other key and value with its size. -/
theorem LogCall.asRead_eq_iff (c : LogCall) :
    c.asRead = c ↔ ∀ id key, c = .bucket (.subBucket id key) → 0 ∉ key := by
  have hother : (∀ id key, c ≠ .bucket (.subBucket id key)) → c.asRead = c →
      (c.asRead = c ↔ ∀ id key, c = .bucket (.subBucket id key) → 0 ∉ key) := fun hne heq =>
    ⟨fun _ id key h => absurd h (hne id key), fun _ => heq⟩
  cases c with
  | bucket call =>
    cases call with
    | subBucket id key =>
      constructor
      · intro h id' key' heq
        obtain ⟨rfl, rfl⟩ := BucketLog.subBucket.inj (LogCall.bucket.inj heq)
        have hkey : key.takeWhile (· ≠ 0) = key :=
          (BucketLog.subBucket.inj (LogCall.bucket.inj h)).2
        rw [List.takeWhile_eq_self_iff] at hkey
        intro hzero
        exact absurd (hkey 0 hzero) (by decide)
      · intro h
        have hkey : key.takeWhile (· ≠ 0) = key := by
          rw [List.takeWhile_eq_self_iff]
          intro b hb
          exact decide_eq_true fun hzero => h id key rfl (hzero ▸ hb)
        show LogCall.bucket (.subBucket id (key.takeWhile (· ≠ 0))) = _
        rw [hkey]
    | put id key value isBucket => exact hother (fun _ _ h => by cases h) rfl
    | delete id key => exact hother (fun _ _ h => by cases h) rfl
  | walTxId txid => exact hother (fun _ _ h => by cases h) rfl
  | begin => exact hother (fun _ _ h => by cases h) rfl
  | rollback => exact hother (fun _ _ h => by cases h) rfl
  | commit => exact hother (fun _ _ h => by cases h) rfl
  | cut id => exact hother (fun _ _ h => by cases h) rfl
  | malformed type => exact hother (fun _ _ h => by cases h) rfl
  | unknown => exact hother (fun _ _ h => by cases h) rfl

/-- **The format of the log.** Wherever the log ends, the calls are read whose records are there,
and what was cut off is known; the whole log is read back as it was written unless the key of a
sub-bucket has a zero in it. -/
theorem readCalls_written (cs : List LogCall) (hcs : ∀ c ∈ cs, c.Written) :
    (∀ n, readCalls ((cs.flatMap LogCall.records).take n) = survivingCalls n cs) ∧
      (readCalls (cs.flatMap LogCall.records) = cs ↔
        ∀ id key, .bucket (.subBucket id key) ∈ cs → 0 ∉ key) := by
  refine ⟨readCalls_take cs hcs, ?_⟩
  have hmap : cs.map LogCall.asRead = cs ↔ ∀ c ∈ cs, c.asRead = id c := by
    rw [← List.map_inj_left, List.map_id]
  rw [readCalls_all hcs, hmap]
  constructor
  · intro h id key hmem
    exact (LogCall.asRead_eq_iff _).1 (h _ hmem) id key rfl
  · intro h c hc
    apply (LogCall.asRead_eq_iff c).2
    rintro id key rfl
    exact h id key hc

instance (c : LogCall) : Decidable c.Written :=
  match c with
  | .walTxId txid => inferInstanceAs (Decidable (txid < 18446744073709551616))
  | .bucket c => inferInstanceAs (Decidable (c.bucketId < 4294967296))
  | .begin => inferInstanceAs (Decidable True)
  | .rollback => inferInstanceAs (Decidable True)
  | .commit => inferInstanceAs (Decidable True)
  | .cut _ => inferInstanceAs (Decidable False)
  | .malformed _ => inferInstanceAs (Decidable False)
  | .unknown => inferInstanceAs (Decidable False)

/-- A transaction with one call of each kind. -/
def bucketCalls : List LogCall :=
  [.walTxId 300, .begin, .bucket (.subBucket 0 [98, 0]), .bucket (.put 2 [107] [] true),
    .bucket (.delete 0 [107]), .commit]

theorem readCalls_written_bucketCalls :
    (∀ n, readCalls ((bucketCalls.flatMap LogCall.records).take n) = survivingCalls n bucketCalls) ∧
      (readCalls (bucketCalls.flatMap LogCall.records) = bucketCalls ↔
        ∀ id key, .bucket (.subBucket id key) ∈ bucketCalls → 0 ∉ key) :=
  readCalls_written bucketCalls (by decide)

end AtomKV
