import AtomKV.FreeList
import AtomKV.Meta

/-!
# Choosing a meta page

`Meta::Load` on a file of which one meta page may hold anything at all. The version is looked
at in the first page only, and before its checksum: a damaged first page can hide a second one
that is intact.
-/

set_option autoImplicit false

namespace AtomKV

/-- A meta page that the database can be opened with. -/
structure MetaStruct.Intact (env : MetaEnv) (m : MetaStruct) : Prop where
  sign : m.sign = kSign
  minVersion : m.minVersion ≤ kVersion
  pageSize : m.pageSize = env.pageSize
  complete : m.Complete env

/-- The meta page with the index `i`. -/
def MetaFile.slot (f : MetaFile) (i : Nat) : MetaStruct := if i = 1 then f.second else f.first

/-- `cur_meta_index_` and the shared meta after the page `i` has been loaded. -/
def MetaFile.loaded (f : MetaFile) (i : Nat) : MetaFile :=
  { f with curMetaIndex := i, shared := f.slot i }

namespace Meta

/-- `Load` takes an intact page, and of two intact ones none that is older than the other. -/
def Selects (env : MetaEnv) (f : MetaFile) : Prop :=
  ∃ i, (i = 0 ∨ i = 1) ∧ load env f = .ok (f.loaded i) ∧ (f.slot i).Intact env ∧
    ∀ j, (j = 0 ∨ j = 1) → (f.slot j).Intact env → (f.slot j).info.txid ≤ (f.slot i).info.txid

variable {env : MetaEnv} {f : MetaFile}

/-! ## What gets through the checks -/

/-- The page with the larger transaction id. -/
def newer (f : MetaFile) : Nat := if f.first.info.txid < f.second.info.txid then 1 else 0

/-- The other page. -/
def other (i : Nat) : Nat := if i = 1 then 0 else 1

theorem newer_cases (f : MetaFile) : newer f = 0 ∨ newer f = 1 := by
  unfold newer
  split
  · exact .inr rfl
  · exact .inl rfl

theorem txid_le_newer (f : MetaFile) (j : Nat) :
    (f.slot j).info.txid ≤ (f.slot (newer f)).info.txid := by
  unfold MetaFile.slot newer
  by_cases hlt : f.first.info.txid < f.second.info.txid
  · rw [if_pos hlt, if_pos rfl]
    split
    · exact Nat.le_refl _
    · exact Nat.le_of_lt hlt
  · rw [if_neg hlt, if_neg Nat.zero_ne_one]
    split
    · exact Nat.not_lt.1 hlt
    · exact Nat.le_refl _

/-- A version that is too high in the first page ends `Load` whatever is in the second one. -/
theorem load_fails (h : kVersion < f.first.minVersion) : ∃ e, load env f = .error e := by
  unfold load
  split
  · exact ⟨_, rfl⟩
  · exact ⟨_, rfl⟩

/-- An intact page gets `Load` through the check of the signs. -/
theorem sign_found {i : Nat} (h : (f.slot i).Intact env) :
    ¬ (f.first.sign ≠ kSign ∧ f.second.sign ≠ kSign) := by
  rintro ⟨h0, h1⟩
  have hs := h.sign
  unfold MetaFile.slot at hs
  split at hs
  · exact h1 hs
  · exact h0 hs

/-- Behind the first two checks the newer page is taken if it is intact. -/
theorem load_newer (hversion : f.first.minVersion ≤ kVersion) (h : (f.slot (newer f)).Intact env) :
    load env f = .ok (f.loaded (newer f)) := by
  have hcomplete := h.complete
  have hsize := h.pageSize
  unfold load
  rw [if_neg (sign_found h), if_neg (Nat.not_lt.2 hversion)]
  unfold MetaFile.slot newer at hcomplete hsize
  simp only [hcomplete, not_true_eq_false, if_true, if_false, hsize, ne_eq]
  rfl

/-- Otherwise the other one is. -/
theorem load_other (hversion : f.first.minVersion ≤ kVersion)
    (hnewer : ¬ (f.slot (newer f)).Complete env) (h : (f.slot (other (newer f))).Intact env) :
      load env f = .ok (f.loaded (other (newer f))) := by
  have hcomplete := h.complete
  have hsize := h.pageSize
  unfold load
  rw [if_neg (sign_found h), if_neg (Nat.not_lt.2 hversion)]
  unfold MetaFile.slot other newer at hcomplete hsize
  unfold MetaFile.slot newer at hnewer
  simp only [hnewer, hcomplete, not_true_eq_false, if_false, hsize, ne_eq]
  rfl

/-- **The choice.** One page at least is intact, and a page that is not intact has a wrong checksum.
Then `Load` chooses as it should exactly when the first page does not ask for a later version. -/
theorem load_selects_iff (hfirst : f.first.Complete env → f.first.Intact env)
    (hsecond : f.second.Complete env → f.second.Intact env)
    (hone : f.first.Intact env ∨ f.second.Intact env) :
    Selects env f ↔ f.first.minVersion ≤ kVersion := by
  have hslot : ∀ i, (f.slot i).Complete env → (f.slot i).Intact env := by
    intro i
    unfold MetaFile.slot
    split
    · exact hsecond
    · exact hfirst
  constructor
  · rintro ⟨i, -, hload, -⟩
    by_contra hversion
    obtain ⟨e, he⟩ : ∃ e, load env f = .error e := load_fails (Nat.not_le.1 hversion)
    rw [he] at hload
    cases hload
  · intro hversion
    by_cases hc : (f.slot (newer f)).Complete env
    · have hintact := hslot _ hc
      exact ⟨newer f, newer_cases f, load_newer hversion hintact, hintact,
        fun j _ _ => txid_le_newer f j⟩
    · -- the newer page is damaged, so the intact one is the other
      have hother : (f.slot (other (newer f))).Intact env := by
        rcases newer_cases f with h | h <;> rw [h] at hc ⊢
        · exact hone.resolve_left fun hi => hc hi.complete
        · exact hone.resolve_right fun hi => hc hi.complete
      refine ⟨other (newer f), ?_, load_other hversion hc hother, hother, ?_⟩
      · rcases newer_cases f with h | h <;> rw [h]
        · exact .inr rfl
        · exact .inl rfl
      · intro j hj hi
        have hne : j ≠ newer f := by
          rintro rfl
          exact hc hi.complete
        have hsame : j = other (newer f) := by
          rcases newer_cases f with h | h <;> rcases hj with rfl | rfl <;> rw [h] at hne ⊢ <;>
            first | exact absurd rfl hne | rfl
        rw [hsame]

/-! ## A file with a damaged first page -/

/-- One bit of the usual CRC-32. -/
def crcBit (crc : BitVec 32) : BitVec 32 :=
  if crc &&& 1#32 = 1#32 then (crc >>> 1) ^^^ 0xEDB88320#32 else crc >>> 1

def crcByte (crc : BitVec 32) (b : UInt8) : BitVec 32 :=
  (crcBit^[8]) (crc ^^^ BitVec.ofNat 32 b.toNat)

/-- The usual CRC-32 of some bytes. -/
def crc32 (bytes : Bytes) : Nat := (bytes.foldl crcByte 0xFFFFFFFF#32 ^^^ 0xFFFFFFFF#32).toNat

/-- The bytes of a `MetaStruct` before `crc32`. -/
def metaBytes (sign pageSize minVersion : Nat) (info : MetaInfo) : Bytes :=
  Pager.encodeU32 sign ++ (Pager.encodeU32 pageSize).take 2 ++ Pager.encodeU32 minVersion ++
    Pager.encodeU32 info.pageCount ++ Pager.encodeU32 info.userRoot ++
      Pager.encodeU32 info.freeListPgid ++
    Pager.encodeU32 info.freePairCount ++ Pager.encodeU32 info.freeListPageCount ++
    Pager.encodeU32 info.txid ++ Pager.encodeU32 (info.txid / 4294967296)

def crcEnv : MetaEnv :=
  ⟨4096, fun sign pageSize minVersion info => crc32 (metaBytes sign pageSize minVersion info)⟩

/-- A page that is all ones. -/
def onesMeta : MetaStruct :=
  ⟨4294967295, 65535, 4294967295,
    ⟨4294967295, 4294967295, 4294967295, 4294967295, 4294967295, 18446744073709551615⟩, 4294967295⟩

/-- A page that is all zeroes. -/
def zeroMeta : MetaStruct := ⟨0, 0, 0, ⟨0, 0, 0, 0, 0, 0⟩, 0⟩

/-- The second page of a new database. -/
def secondMeta : MetaStruct :=
  ⟨kSign, 4096, kVersion, initInfo 1, crc32 (metaBytes kSign 4096 kVersion (initInfo 1))⟩

theorem secondMeta_intact : secondMeta.Intact crcEnv := ⟨rfl, Nat.le_refl _, rfl, rfl⟩

/-- With zeroes in the first page the second one is loaded. -/
theorem load_selects_zeroMeta : Selects crcEnv ⟨zeroMeta, secondMeta, zeroMeta, 0⟩ :=
  (load_selects_iff (fun h => absurd h (by decide +kernel)) (fun _ => secondMeta_intact)
    (.inr secondMeta_intact)).2 (by decide)

/-- With ones in the first page `Load` throws, though the second page is intact. -/
theorem not_load_selects :
    ¬ (∀ (env : MetaEnv) (f : MetaFile), (f.first.Complete env → f.first.Intact env) →
    (f.second.Complete env → f.second.Intact env) → f.first.Intact env ∨ f.second.Intact env →
      Selects env f) := by
  intro hall
  obtain ⟨i, -, hload, -⟩ :=
    hall crcEnv ⟨onesMeta, secondMeta, zeroMeta, 0⟩ (fun h => absurd h (by decide +kernel))
    (fun _ => secondMeta_intact) (.inr secondMeta_intact)
  cases hload

end Meta

end AtomKV
