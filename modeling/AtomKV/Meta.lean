import AtomKV.Format

/-!
# The meta pages

`meta.cpp`. The first two pages of the file hold a `MetaStruct` each; `cur_meta_index_` names
the one that was written last, and a copy for all readers is in shared memory. `wal::Crc32`
is a parameter.
-/

set_option autoImplicit false

namespace AtomKV

/-- `MetaStruct`. -/
structure MetaStruct where
  sign : Nat
  pageSize : Nat
  minVersion : Nat
  info : MetaInfo
  crc32 : Nat
  deriving DecidableEq, Repr

/-- `ATOMKV_SIGN`: the characters `atom` as one number. -/
def kSign : Nat := 0x61746f6d

/-- `ATOMKV_VERSION`. -/
def kVersion : Nat := 1

/-- What the meta depends on: the page size in the options, and the checksum of all fields
before `crc32`. -/
structure MetaEnv where
  pageSize : Nat
  crc : Nat → Nat → Nat → MetaInfo → Nat

/-- The two meta pages, the meta in shared memory and `cur_meta_index_`. -/
structure MetaFile where
  first : MetaStruct
  second : MetaStruct
  shared : MetaStruct
  curMetaIndex : Nat

/-- The checksum of a meta. -/
def MetaStruct.checksum (env : MetaEnv) (m : MetaStruct) : Nat :=
  env.crc m.sign m.pageSize m.minVersion m.info

/-- The checksum in the meta is right. -/
def MetaStruct.Complete (env : MetaEnv) (m : MetaStruct) : Prop := m.checksum env = m.crc32

instance (env : MetaEnv) (m : MetaStruct) : Decidable (m.Complete env) :=
  inferInstanceAs (Decidable (_ = _))

namespace Meta

/-- `Meta::Switch`. -/
def switch (f : MetaFile) : MetaFile :=
  { f with curMetaIndex := if f.curMetaIndex = 0 then 1 else 0 }

/-- `Meta::Save`. -/
def save (env : MetaEnv) (f : MetaFile) : MetaFile :=
  let m := { f.shared with crc32 := f.shared.checksum env }
  if f.curMetaIndex = 0 then { f with shared := m, first := m }
    else { f with shared := m, second := m }

/-- `Meta::Reset`. -/
def reset (info : MetaInfo) (f : MetaFile) : MetaFile :=
  { f with shared := { f.shared with info := info } }

/-- The fields that `Meta::Init` writes, with the transaction id `txid`. -/
def initInfo (txid : Nat) : MetaInfo where
  pageCount := 2
  userRoot := kPageInvalidId
  freeListPgid := kPageInvalidId
  freePairCount := 0
  freeListPageCount := 0
  txid := txid

/-- `Meta::Init`. -/
def init (env : MetaEnv) (f : MetaFile) : MetaFile :=
  let first : MetaStruct := ⟨kSign, env.pageSize, kVersion, initInfo 2, f.shared.crc32⟩
  let f := save env { f with curMetaIndex := 0, shared := first }
  let f := switch f
  let f := save env { f with shared := { f.shared with info := { f.shared.info with txid := 1 } } }
  switch f

/-- `Meta::Load`. -/
def load (env : MetaEnv) (f : MetaFile) : Except Err MetaFile :=
  if f.first.sign ≠ kSign ∧ f.second.sign ≠ kSign then .error (.runtimeError "Not a atomkv file.")
  else if kVersion < f.first.minVersion then
    .error (.runtimeError "the target database version is too high.")
  else
    let newer := if f.first.info.txid < f.second.info.txid then 1 else 0
    let slot (i : Nat) : MetaStruct := if i = 1 then f.second else f.first
    -- an incomplete meta is replaced by the other one
    let cur := if (slot newer).Complete env then newer else if newer = 1 then 0 else 1
    if ¬ (slot cur).Complete env then .error (.runtimeError "database is damaged.")
    else if (slot cur).pageSize ≠ env.pageSize then
      .error (.runtimeError "database cannot match system page size.")
    else .ok { f with curMetaIndex := cur, shared := slot cur }

/-! ## Saving and loading -/

variable {env : MetaEnv} {f : MetaFile}

/-- A meta that `Save` has written at some time: everything but its checksum is in order. -/
structure Formatted (env : MetaEnv) (m : MetaStruct) : Prop where
  sign : m.sign = kSign
  pageSize : m.pageSize = env.pageSize
  minVersion : m.minVersion = kVersion

theorem load_first (h : Formatted env f.first) (hc : f.first.Complete env)
    (hother : f.second.info.txid ≤ f.first.info.txid ∨ ¬ f.second.Complete env) :
    load env f = .ok { f with curMetaIndex := 0, shared := f.first } := by
  obtain ⟨h1, h2, h3⟩ := h
  unfold load
  rw [if_neg (fun hs => hs.1 h1), if_neg (by rw [h3]; exact Nat.lt_irrefl _)]
  by_cases hlt : f.first.info.txid < f.second.info.txid
  · have hnot : ¬ f.second.Complete env := hother.resolve_left (Nat.not_le.2 hlt)
    simp [hlt, hnot, hc, h2]
  · simp [hlt, hc, h2]

theorem load_second (h : Formatted env f.second) (hc : f.second.Complete env)
    (hfirst : Formatted env f.first)
    (hother : f.first.info.txid < f.second.info.txid ∨ ¬ f.first.Complete env) :
    load env f = .ok { f with curMetaIndex := 1, shared := f.second } := by
  obtain ⟨h1, h2, h3⟩ := h
  unfold load
  rw [if_neg (fun hs => hs.2 h1), if_neg (by rw [hfirst.minVersion]; exact Nat.lt_irrefl _)]
  by_cases hlt : f.first.info.txid < f.second.info.txid
  · simp [hlt, hc, h2]
  · have hnot : ¬ f.first.Complete env := hother.resolve_left hlt
    simp [hlt, hnot, hc, h2]

end Meta

end AtomKV
