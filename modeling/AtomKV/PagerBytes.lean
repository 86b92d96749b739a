import AtomKV.Pager
import Mathlib.Data.List.Basic
import Mathlib.Tactic.Common

/-!
# Bytes that run over pages

`WriteByBytes` and the reads through `GetPtr` treat the pages from `pgid` on as one stretch of
memory. `byteAt` is the byte at an address of that memory; a write changes exactly the bytes it
covers, and a read lists the bytes from an address on.
-/

set_option autoImplicit false

namespace AtomKV

namespace Pager

variable {P : Nat}

/-- The byte at address `a`. -/
def byteAt (P : Nat) (pager : Pager) (a : Nat) : Option UInt8 :=
  (pageBytes P (pager.pages (a / P)))[a % P]?

theorem length_pageBytes (P : Nat) (page : Page) : (pageBytes P page).length = P := by
  simp only [pageBytes, List.length_append, List.length_take, List.length_replicate]
  omega

theorem pageBytes_of_length {bytes : Bytes} (h : bytes.length = P) :
    pageBytes P (.raw bytes) = bytes := by
  simp only [pageBytes, rawBytes, h, Nat.sub_self, List.replicate_zero, List.append_nil]
  rw [← h, List.take_length]

theorem getElem?_pageBytes_splice (page : Page) {offset : Nat} {buf : Bytes}
    (h : offset + buf.length ≤ P) (j : Nat) :
    (pageBytes P (splice P page offset buf))[j]? =
      if offset ≤ j ∧ j < offset + buf.length then buf[j - offset]?
        else (pageBytes P page)[j]? := by
  have hlen := length_pageBytes P page
  rw [splice, pageBytes_of_length (by simp [hlen]; omega)]
  simp only [List.getElem?_append, List.length_append, List.length_take, hlen, List.getElem?_take,
    List.getElem?_drop]
  by_cases h1 : j < offset
  · rw [if_pos (by omega), if_pos (by omega), if_pos h1, if_neg (by omega)]
  · by_cases h2 : j < offset + buf.length
    · rw [if_pos (by omega), if_neg (by omega), if_pos (by omega), Nat.min_eq_left (by omega)]
    · rw [if_neg (by omega), if_neg (by omega), Nat.min_eq_left (by omega)]
      congr 1
      omega

theorem writeByBytes_pages (pager : Pager) (pgid offset : Nat) (buf : Bytes) (q : Nat) :
    (writeByBytes P pager pgid offset buf).pages q =
      if q * P < pgid * P + offset + buf.length ∧ pgid * P + offset < (q + 1) * P ∧ buf ≠ [] then
        splice P (pager.pages q) (pgid * P + offset - q * P)
          ((buf.drop (q * P - (pgid * P + offset))).take (P - (pgid * P + offset - q * P)))
      else pager.pages q := rfl

/-- **A write changes the bytes it covers and no others.** -/
theorem byteAt_writeByBytes (hP : 0 < P) (pager : Pager) (pgid offset : Nat) (buf : Bytes)
    (a : Nat) : byteAt P (writeByBytes P pager pgid offset buf) a =
      if pgid * P + offset ≤ a ∧ a < pgid * P + offset + buf.length then
        buf[a - (pgid * P + offset)]?
      else byteAt P pager a := by
  unfold byteAt
  rw [writeByBytes_pages]
  generalize pgid * P + offset = start
  have hq := Nat.div_add_mod a P
  have hj := Nat.mod_lt a hP
  generalize hqe : a / P = q at hq ⊢
  generalize a % P = j at hq hj ⊢
  rw [Nat.mul_comm] at hq
  have hsucc : (q + 1) * P = q * P + P := by rw [Nat.add_mul, Nat.one_mul]
  by_cases hc : q * P < start + buf.length ∧ start < (q + 1) * P ∧ buf ≠ []
  · rw [if_pos hc]
    obtain ⟨h1, h2, -⟩ := hc
    rw [hsucc] at h2
    generalize q * P = m at *
    rw [getElem?_pageBytes_splice _ (by simp only [List.length_take, List.length_drop]; omega)]
    simp only [List.length_take, List.length_drop, List.getElem?_take, List.getElem?_drop]
    by_cases h3 : start ≤ a ∧ a < start + buf.length
    · rw [if_pos h3, if_pos (by omega), if_pos (by omega)]
      congr 1
      omega
    · rw [if_neg h3, if_neg (by omega)]
  · rw [if_neg hc, if_neg]
    rintro ⟨h1, h2⟩
    refine hc ⟨by omega, by omega, ?_⟩
    rintro rfl
    simp at h2
    omega

theorem getElem?_flatMap_range {f : Nat → Bytes} (hP : 0 < P) (hf : ∀ i, (f i).length = P)
    (m j : Nat) :
    ((List.range m).flatMap f)[j]? = if j < m * P then (f (j / P))[j % P]? else none := by
  induction m with
  | zero => simp
  | succ m ih =>
    have hlen : ((List.range m).flatMap f).length = m * P := by
      rw [List.length_flatMap]
      simp only [hf, List.map_const', List.length_range, List.sum_replicate_nat]
    rw [List.range_succ, List.flatMap_append, List.getElem?_append, hlen, ih]
    have hsucc : (m + 1) * P = m * P + P := by rw [Nat.add_mul, Nat.one_mul]
    by_cases h1 : j < m * P
    · rw [if_pos h1, if_pos h1, if_pos (by omega)]
    · rw [if_neg h1]
      simp only [List.flatMap_cons, List.flatMap_nil, List.append_nil]
      by_cases h2 : j < (m + 1) * P
      · have h3 : j / P = m := Nat.div_eq_of_lt_le (by omega) h2
        have h4 : j % P = j - m * P := by
          have := Nat.div_add_mod j P
          rw [h3, Nat.mul_comm] at this
          omega
        rw [if_pos h2, h3, h4]
      · rw [if_neg h2, List.getElem?_eq_none]
        rw [hf]
        omega

theorem getPageCount_eq (hP : 0 < P) (n : Nat) : getPageCount P n = (n + P - 1) / P := by
  have h1 := Nat.div_add_mod n P
  have h2 := Nat.mod_lt n hP
  unfold getPageCount
  split
  · next h =>
    rw [eq_comm, Nat.div_eq_of_lt_le]
    · rw [Nat.add_mul, Nat.one_mul, Nat.mul_comm]
      omega
    · rw [Nat.add_mul, Nat.add_mul, Nat.one_mul, Nat.mul_comm]
      omega
  · next h =>
    rw [eq_comm, Nat.div_eq_of_lt_le]
    · rw [Nat.mul_comm]
      omega
    · rw [Nat.add_mul, Nat.one_mul, Nat.mul_comm]
      omega

/-- The pages of `n` bytes hold `n` bytes. -/
theorem le_getPageCount_mul (hP : 0 < P) (n : Nat) : n ≤ getPageCount P n * P := by
  have h1 := Nat.div_add_mod n P
  have h2 := Nat.mod_lt n hP
  rw [Nat.mul_comm] at h1
  unfold getPageCount
  split
  · rw [Nat.add_mul, Nat.one_mul]
    omega
  · omega

theorem getPageCount_pos (hP : 0 < P) {n : Nat} (hn : 0 < n) : 0 < getPageCount P n := by
  have := le_getPageCount_mul hP n
  rcases Nat.eq_zero_or_pos (getPageCount P n) with h | h
  · rw [h] at this
    omega
  · exact h

theorem getPageCount_mono (hP : 0 < P) {m n : Nat} (h : m ≤ n) :
    getPageCount P m ≤ getPageCount P n := by
  rw [getPageCount_eq hP, getPageCount_eq hP]
  exact Nat.div_le_div_right (by omega)

/-- A read lists the bytes from the start of the page on. -/
theorem getElem?_readBytes (hP : 0 < P) (pager : Pager) (pgid n j : Nat) :
    (readBytes P pager pgid n)[j]? = if j < n then byteAt P pager (pgid * P + j) else none := by
  unfold readBytes
  rw [List.getElem?_take]
  by_cases h1 : j < n
  · have h2 := le_getPageCount_mul hP n
    rw [getPageCount_eq hP] at h2
    rw [if_pos h1, if_pos h1, getElem?_flatMap_range hP (fun i => length_pageBytes P _),
      if_pos (by omega), byteAt, Nat.mul_comm pgid, Nat.mul_add_div hP, Nat.mul_add_mod]
  · rw [if_neg h1, if_neg h1]

/-- A read looks at the pages of its run only. -/
theorem readBytes_congr (hP : 0 < P) {pager pager' : Pager} {pgid n : Nat}
    (h : ∀ p, pgid ≤ p → p < pgid + getPageCount P n → pager'.pages p = pager.pages p) :
    readBytes P pager' pgid n = readBytes P pager pgid n := by
  unfold readBytes
  congr 1
  simp only [List.flatMap]
  congr 1
  refine List.map_congr_left fun i hi => ?_
  have hi := List.mem_range.1 hi
  rw [h (pgid + i) (by omega) (by rw [getPageCount_eq hP]; omega)]

/-- What `StoreRecordToOverflowPages` writes: the key, and behind it the value. -/
def writeRecord (P : Nat) (pager : Pager) (pgid : Nat) (key value : Bytes) : Pager :=
  let pager := writeByBytes P pager pgid 0 key
  if value ≠ [] then writeByBytes P pager (pgid + key.length / P) (key.length % P) value else pager

theorem writeByBytes_nil (pager : Pager) (pgid offset : Nat) :
    writeByBytes P pager pgid offset [] = pager := by
  simp [writeByBytes]

theorem writeRecord_eq (pager : Pager) (pgid : Nat) (key value : Bytes) :
    writeRecord P pager pgid key value =
      writeByBytes P (writeByBytes P pager pgid 0 key) (pgid + key.length / P) (key.length % P)
        value := by
  unfold writeRecord
  by_cases h : value = []
  · subst h
    simp [writeByBytes_nil]
  · simp [h]

theorem value_start (pgid : Nat) (key : Bytes) :
    (pgid + key.length / P) * P + key.length % P = pgid * P + key.length := by
  have := Nat.div_add_mod key.length P
  rw [Nat.mul_comm] at this
  rw [Nat.add_mul]
  omega

/-- The bytes that were written are read back. -/
theorem readBytes_writeRecord (hP : 0 < P) (pager : Pager) (pgid : Nat) (key value : Bytes) :
    readBytes P (writeRecord P pager pgid key value) pgid (key.length + value.length) =
      key ++ value := by
  refine List.ext_getElem? fun j => ?_
  rw [getElem?_readBytes hP, writeRecord_eq, byteAt_writeByBytes hP, byteAt_writeByBytes hP,
    value_start, List.getElem?_append]
  simp only [Nat.add_zero]
  by_cases h1 : j < key.length
  · rw [if_pos (by omega), if_neg (by omega), if_pos (by omega), if_pos h1]
    congr 1
    omega
  · rw [if_neg h1]
    by_cases h2 : j < key.length + value.length
    · rw [if_pos h2, if_pos (by omega)]
      congr 1
      omega
    · rw [if_neg h2, List.getElem?_eq_none (by omega)]

/-- A record that fits into `n` pages is written to these pages only. -/
theorem writeRecord_pages (hP : 0 < P) (pager : Pager) (pgid : Nat) (key value : Bytes) {q : Nat}
    (hq : q < pgid ∨ pgid + getPageCount P (key.length + value.length) ≤ q) :
    (writeRecord P pager pgid key value).pages q = pager.pages q := by
  have hle := le_getPageCount_mul hP (key.length + value.length)
  have hout : ∀ m, q < pgid ∨ pgid + m ≤ q → q * P + P ≤ pgid * P ∨ pgid * P + m * P ≤ q * P := by
    rintro m (h | h)
    · refine .inl ?_
      have := Nat.mul_le_mul_right P (show q + 1 ≤ pgid from h)
      rwa [Nat.add_mul, Nat.one_mul] at this
    · refine .inr ?_
      have := Nat.mul_le_mul_right P h
      rwa [Nat.add_mul] at this
  have hcase := hout _ hq
  have hsucc : (q + 1) * P = q * P + P := by rw [Nat.add_mul, Nat.one_mul]
  rw [writeRecord_eq, writeByBytes_pages, writeByBytes_pages, value_start, hsucc, if_neg, if_neg]
  · rintro ⟨h1, h2, -⟩
    omega
  · rintro ⟨h1, h2, h3⟩
    have := List.length_pos_iff.2 h3
    omega

@[simp] theorem writeRecord_freeMap (pager : Pager) (pgid : Nat) (key value : Bytes) :
    (writeRecord P pager pgid key value).freeMap = pager.freeMap := by
  rw [writeRecord_eq]
  rfl

@[simp] theorem writeRecord_pendingMap (pager : Pager) (pgid : Nat) (key value : Bytes) :
    (writeRecord P pager pgid key value).pendingMap = pager.pendingMap := by
  rw [writeRecord_eq]
  rfl

@[simp] theorem writeRecord_allocRecords (pager : Pager) (pgid : Nat) (key value : Bytes) :
    (writeRecord P pager pgid key value).allocRecords = pager.allocRecords := by
  rw [writeRecord_eq]
  rfl

/-- A page that holds a node was not written to. -/
theorem node_of_writeByBytes {pager : Pager} {pgid offset : Nat} {buf : Bytes} {q : Nat} {n : Node}
    (h : (writeByBytes P pager pgid offset buf).pages q = .node n) : pager.pages q = .node n := by
  rw [writeByBytes_pages] at h
  split_ifs at h
  · cases h
  · exact h

theorem node_of_writeRecord {pager : Pager} {pgid : Nat} {key value : Bytes} {q : Nat} {n : Node}
    (h : (writeRecord P pager pgid key value).pages q = .node n) : pager.pages q = .node n := by
  rw [writeRecord_eq] at h
  exact node_of_writeByBytes (node_of_writeByBytes h)

end Pager

end AtomKV
